import DeskCalc.Literal
import DeskCalc.Proofs.Lexeme
import Mathlib.Data.List.Count
import Mathlib.Data.List.TakeWhile

/-!
# DeskCalc.Proofs.Numeral — which runs of numerals have a value

* `IsNumeral text`: digits with at most one point among, before or after them, and at least one digit.
* `isSome_value?_iff`: of the texts that consist of digits and points, exactly these have a value.
-/

namespace DeskCalc.Literal

open Token

variable {cs : List Char} {text : String}

/-- Digits with at most one point, at least one digit in all. -/
structure IsNumeral (text : String) : Prop where
  numerals : ∀ c ∈ text.toList, isNumeral c = true
  points : text.toList.count '.' ≤ 1
  digit : ∃ c ∈ text.toList, c.isDigit = true

instance (text : String) : Decidable (IsNumeral text) :=
  decidable_of_iff
    (text.toList.all isNumeral = true ∧ text.toList.count '.' ≤ 1 ∧ text.toList.any Char.isDigit = true)
    ⟨fun ⟨h₁, h₂, h₃⟩ => ⟨List.all_eq_true.mp h₁, h₂, List.any_eq_true.mp h₃⟩,
      fun ⟨h₁, h₂, h₃⟩ => ⟨List.all_eq_true.mpr h₁, h₂, List.any_eq_true.mpr h₃⟩⟩

/-! ## No sign, no word, no exponent -/

section Plain

theorem splitSign_of_numerals (h : ∀ c ∈ cs, isNumeral c = true) : splitSign cs = (false, cs) := by
  unfold splitSign
  split
  · exact absurd (h '+' (List.mem_cons_self ..)) (by decide)
  · exact absurd (h '-' (List.mem_cons_self ..)) (by decide)
  · rfl

theorem toLower_of_isNumeral {c : Char} (h : isNumeral c = true) : c.toLower = c := by
  refine dif_neg ?_
  rintro ⟨hlo, -⟩
  rcases isNumeral_iff.mp h with hd | rfl
  · simp only [Char.isDigit, Bool.and_eq_true, decide_eq_true_eq] at hd
    exact absurd (UInt32.le_trans hlo hd.2) (by decide)
  · exact absurd hlo (by decide)

theorem word?_of_numerals (h : ∀ c ∈ cs, isNumeral c = true) : word? cs = none := by
  have hmap : cs.map Char.toLower = cs := by
    refine (List.map_congr_left fun c hc => ?_).trans (List.map_id cs)
    exact toLower_of_isNumeral (h c hc)
  -- a word contains an `n`, which is no numeral
  have hn : 'n' ∉ (String.ofList cs).toList := by
    rw [String.toList_ofList]
    intro hn
    exact absurd (h 'n' hn) (by decide)
  unfold word?
  rw [hmap]
  split
  · rename_i heq
    exact absurd (by rw [heq]; decide) hn
  · rename_i heq
    exact absurd (by rw [heq]; decide) hn
  · rename_i heq
    exact absurd (by rw [heq]; decide) hn
  · rfl

theorem isSome_exponent?_iff (h : ∀ c ∈ cs, isNumeral c = true) : (exponent? cs).isSome = true ↔ cs = [] := by
  cases cs with
  | nil => simp [exponent?]
  | cons c cs =>
    have hc := h c (List.mem_cons_self ..)
    have hne : ¬(c = 'e' ∨ c = 'E') := by
      rintro (rfl | rfl) <;> exact absurd hc (by decide)
    simp [exponent?, hne]

end Plain

/-! ## Digits around a point -/

section Digits

theorem isSome_natural?_iff (h : ∀ c ∈ cs, c.isDigit = true) : (natural? cs).isSome = true ↔ cs ≠ [] := by
  have hall : cs.all Char.isDigit = true := List.all_eq_true.mpr h
  unfold natural?
  split_ifs with hc
  · simp [hc.1]
  · simpa [hall] using hc

theorem count_point_of_digits (h : ∀ c ∈ cs, c.isDigit = true) : cs.count '.' = 0 :=
  List.count_eq_zero.mpr fun hp => absurd (h '.' hp) (by decide)

/-- Digits and points are digits only, or they have a first point with digits before it. -/
theorem digits_or_split (h : ∀ c ∈ cs, isNumeral c = true) :
    (∀ c ∈ cs, c.isDigit = true) ∨
    ∃ whole tail, cs = whole ++ '.' :: tail ∧ (∀ c ∈ whole, c.isDigit = true) ∧ ∀ c ∈ tail, isNumeral c = true := by
  induction cs with
  | nil => exact Or.inl (by simp)
  | cons c cs ih =>
    obtain ⟨hc, hcs⟩ := List.forall_mem_cons.mp h
    rcases isNumeral_iff.mp hc with hd | rfl
    · rcases ih hcs with hall | ⟨whole, tail, rfl, hw, ht⟩
      · exact Or.inl (List.forall_mem_cons.mpr ⟨hd, hall⟩)
      · exact Or.inr ⟨c :: whole, tail, rfl, List.forall_mem_cons.mpr ⟨hd, hw⟩, ht⟩
    · exact Or.inr ⟨[], cs, rfl, by simp, hcs⟩

theorem decimal?_digits (h : ∀ c ∈ cs, c.isDigit = true) :
    decimal? cs = (natural? cs).map fun n => ⟨n, 0⟩ := by
  have ht : cs.takeWhile Char.isDigit = cs := List.takeWhile_eq_self_iff.mpr h
  have hd : cs.dropWhile Char.isDigit = [] := List.dropWhile_eq_nil_iff.mpr h
  rw [decimal?, ht, hd]
  cases hn : natural? cs <;> simp [splitPlaces, exponent?, hn]

theorem isSome_decimal?_point {whole tail : List Char} (hw : ∀ c ∈ whole, c.isDigit = true) :
    (decimal? (whole ++ '.' :: tail)).isSome = true ↔
      (natural? (whole ++ tail.takeWhile Char.isDigit)).isSome = true ∧
        (exponent? (tail.dropWhile Char.isDigit)).isSome = true := by
  have ht : (whole ++ '.' :: tail).takeWhile Char.isDigit = whole := by
    rw [List.takeWhile_append_of_pos hw]
    simp
  have hd : (whole ++ '.' :: tail).dropWhile Char.isDigit = '.' :: tail := by
    rw [List.dropWhile_append_of_pos hw]
    simp
  rw [decimal?, ht, hd]
  cases hn : natural? (whole ++ tail.takeWhile Char.isDigit) <;>
    cases he : exponent? (tail.dropWhile Char.isDigit) <;> simp [splitPlaces, hn, he]

theorem isSome_decimal?_iff (h : ∀ c ∈ cs, isNumeral c = true) :
    (decimal? cs).isSome = true ↔ cs.count '.' ≤ 1 ∧ ∃ c ∈ cs, c.isDigit = true := by
  rcases digits_or_split h with hall | ⟨whole, tail, rfl, hw, htail⟩
  · rw [decimal?_digits hall, Option.isSome_map, isSome_natural?_iff hall, count_point_of_digits hall]
    constructor
    · intro hne
      obtain ⟨c, hc⟩ := List.exists_mem_of_ne_nil cs hne
      exact ⟨Nat.zero_le 1, c, hc, hall c hc⟩
    · rintro ⟨-, c, hc, -⟩
      exact List.ne_nil_of_mem hc
  · have hrest : ∀ c ∈ tail.dropWhile Char.isDigit, isNumeral c = true :=
      fun c hc => htail c ((List.dropWhile_sublist _).subset hc)
    have hplaces : ∀ c ∈ whole ++ tail.takeWhile Char.isDigit, c.isDigit = true := by
      intro c hc
      rcases List.mem_append.mp hc with hc | hc
      · exact hw c hc
      · exact List.mem_takeWhile_imp hc
    rw [isSome_decimal?_point hw, isSome_exponent?_iff hrest, isSome_natural?_iff hplaces,
      List.dropWhile_eq_nil_iff, List.count_append, List.count_cons_self, count_point_of_digits hw]
    constructor
    · rintro ⟨hne, hall⟩
      rw [count_point_of_digits hall]
      obtain ⟨c, hc⟩ := List.exists_mem_of_ne_nil _ hne
      refine ⟨by omega, c, ?_, hplaces c hc⟩
      rcases List.mem_append.mp hc with hc | hc
      · simp [hc]
      · simp [(List.takeWhile_sublist _).subset hc]
    · rintro ⟨hcount, c, hc, hdigit⟩
      have hall : ∀ d ∈ tail, d.isDigit = true := by
        intro d hd
        rcases isNumeral_iff.mp (htail d hd) with hdig | rfl
        · exact hdig
        · have hpoint := List.count_pos_iff.mpr hd
          omega
      refine ⟨?_, hall⟩
      rw [List.takeWhile_eq_self_iff.mpr hall]
      rcases List.mem_append.mp hc with hc | hc
      · exact List.ne_nil_of_mem (List.mem_append_left _ hc)
      · rcases List.mem_cons.mp hc with rfl | hc
        · exact absurd hdigit (by decide)
        · exact List.ne_nil_of_mem (List.mem_append_right _ hc)

end Digits

/-- **Numerals**: of the texts of digits and points, those with at most one point and at least one digit have a
value. -/
theorem isSome_value?_iff (h : ∀ c ∈ text.toList, isNumeral c = true) :
    (value? text).isSome = true ↔ IsNumeral text := by
  rw [value?, splitSign_of_numerals h]
  show (Option.map _ (code? text.toList)).isSome = true ↔ _
  rw [code?, word?_of_numerals h, Option.isSome_map, Option.isSome_map, isSome_decimal?_iff h]
  exact ⟨fun ⟨hp, hd⟩ => ⟨h, hp, hd⟩, fun hn => ⟨hn.points, hn.digit⟩⟩

end DeskCalc.Literal
