import DeskCalc.Proofs.Nearest
import DeskCalc.Proofs.Spelling
import Mathlib.Data.List.DropRight

/-!
# DeskCalc.Proofs.Denotation — the numbers that texts denote

* `unsigned cs`: the number that digits with at most one point among them denote, the whole part and the places each
  read as a number.  `denoted s` lets a minus sign stand in front.
* `significant s`: the digits of a text from the first to the last that is not zero.
* `exists_value?`: a numeral is read as the code nearest to the number it denotes.
* `exists_significant`: this number is one of as many digits as are significant, times a power of ten.
-/

namespace DeskCalc.Literal

open Decimal

variable {cs whole places : List Char} {text : String}

/-! ## Definitions -/

section Definitions

/-- What stands before the point. -/
def wholePart (cs : List Char) : List Char := cs.takeWhile (· != '.')

/-- What stands behind the point. -/
def placePart (cs : List Char) : List Char := (cs.dropWhile (· != '.')).tail

/-- The number that digits denote, with or without a point among them. -/
def unsigned (cs : List Char) : ℚ :=
  Nat.ofDigitChars 10 (wholePart cs) 0 + Nat.ofDigitChars 10 (placePart cs) 0 / 10 ^ (placePart cs).length

/-- The number that a text denotes, with or without a minus sign in front. -/
def denoted (s : String) : ℚ := if s.toList.head? = some '-' then -unsigned s.toList.tail else unsigned s.toList

/-- The digits of a text from the first to the last that is not zero. -/
def significant (s : String) : List Char :=
  ((s.toList.filter Char.isDigit).dropWhile (· == '0')).rdropWhile (· == '0')

/-- A numeral, with or without a minus sign in front. -/
def IsSigned (s : String) : Prop := IsNumeral s ∨ ∃ text, IsNumeral text ∧ s = "-" ++ text

end Definitions

/-! ## Digits -/

section Digits

theorem ne_point_of_isDigit {c : Char} (h : c.isDigit = true) : (c != '.') = true := by
  rw [bne_iff_ne]
  rintro rfl
  exact absurd h (by decide)

theorem ne_minus_of_isNumeral {c : Char} (h : Token.isNumeral c = true) : c ≠ '-' := by
  rintro rfl
  exact absurd h (by decide)

theorem sub_lt_ten_of_isDigit {c : Char} (h : c.isDigit = true) : c.toNat - '0'.toNat < 10 := by
  simp only [Char.isDigit, Bool.and_eq_true, decide_eq_true_eq] at h
  have hle : c.toNat ≤ 57 := h.2
  have hzero : '0'.toNat = 48 := rfl
  omega

/-- A number of so many digits. -/
theorem ofDigitChars_lt (h : ∀ c ∈ cs, c.isDigit = true) : Nat.ofDigitChars 10 cs 0 < 10 ^ cs.length := by
  induction cs with
  | nil => simp
  | cons c cs ih =>
    obtain ⟨hc, hcs⟩ := List.forall_mem_cons.mp h
    have hdigit := sub_lt_ten_of_isDigit hc
    have hrest := ih hcs
    rw [Nat.ofDigitChars_cons, Nat.ofDigitChars_eq_ofDigitChars_zero, Nat.mul_zero, Nat.zero_add, List.length_cons,
      Nat.pow_succ]
    calc 10 ^ cs.length * (c.toNat - '0'.toNat) + Nat.ofDigitChars 10 cs 0
        < 10 ^ cs.length * (c.toNat - '0'.toNat) + 10 ^ cs.length := Nat.add_lt_add_left hrest _
      _ = 10 ^ cs.length * (c.toNat - '0'.toNat + 1) := (Nat.mul_succ ..).symm
      _ ≤ 10 ^ cs.length * 10 := Nat.mul_le_mul_left _ hdigit

/-- Digits behind digits. -/
theorem ofDigitChars_append_zero (as bs : List Char) :
    Nat.ofDigitChars 10 (as ++ bs) 0 = Nat.ofDigitChars 10 as 0 * 10 ^ bs.length + Nat.ofDigitChars 10 bs 0 := by
  rw [Nat.ofDigitChars_append, Nat.ofDigitChars_eq_ofDigitChars_zero, Nat.mul_comm]

theorem ofDigitChars_of_zeros (h : ∀ c ∈ cs, c = '0') : Nat.ofDigitChars 10 cs 0 = 0 := by
  rw [List.eq_replicate_iff.mpr ⟨rfl, h⟩, Nat.ofDigitChars_replicate_zero, Nat.mul_zero]

/-- Digits are their significant ones, times a power of ten. -/
theorem ofDigitChars_eq_significant (cs : List Char) : ∃ j, Nat.ofDigitChars 10 cs 0 =
    Nat.ofDigitChars 10 ((cs.dropWhile (· == '0')).rdropWhile (· == '0')) 0 * 10 ^ j := by
  refine ⟨((cs.dropWhile (· == '0')).rtakeWhile (· == '0')).length, ?_⟩
  have hleading : Nat.ofDigitChars 10 (cs.takeWhile (· == '0')) 0 = 0 :=
    ofDigitChars_of_zeros fun c hc => eq_of_beq (List.mem_takeWhile_imp (p := (· == '0')) hc)
  have htrailing : Nat.ofDigitChars 10 ((cs.dropWhile (· == '0')).rtakeWhile (· == '0')) 0 = 0 :=
    ofDigitChars_of_zeros fun c hc => eq_of_beq (List.mem_rtakeWhile_imp (p := (· == '0')) hc)
  calc Nat.ofDigitChars 10 cs 0
      = Nat.ofDigitChars 10 (cs.takeWhile (· == '0') ++ cs.dropWhile (· == '0')) 0 := by
        rw [List.takeWhile_append_dropWhile]
    _ = Nat.ofDigitChars 10 (cs.dropWhile (· == '0')) 0 := by
        rw [ofDigitChars_append_zero, hleading, Nat.zero_mul, Nat.zero_add]
    _ = Nat.ofDigitChars 10 ((cs.dropWhile (· == '0')).rdropWhile (· == '0') ++
          (cs.dropWhile (· == '0')).rtakeWhile (· == '0')) 0 := by
        rw [List.rdropWhile_append_rtakeWhile]
    _ = _ := by rw [ofDigitChars_append_zero, htrailing, Nat.add_zero]

end Digits

/-! ## Digits around a point -/

section Point

theorem unsigned_digits (h : ∀ c ∈ cs, c.isDigit = true) : unsigned cs = Nat.ofDigitChars 10 cs 0 := by
  have hall : ∀ c ∈ cs, (c != '.') = true := fun c hc => ne_point_of_isDigit (h c hc)
  rw [unsigned, wholePart, placePart, List.takeWhile_eq_self_iff.mpr hall, List.dropWhile_eq_nil_iff.mpr hall]
  simp

theorem unsigned_point (h : ∀ c ∈ whole, c.isDigit = true) :
    unsigned (whole ++ '.' :: places) =
      Nat.ofDigitChars 10 (whole ++ places) 0 * 10 ^ (-(places.length : ℤ)) := by
  have hall : ∀ c ∈ whole, (c != '.') = true := fun c hc => ne_point_of_isDigit (h c hc)
  have hwhole : wholePart (whole ++ '.' :: places) = whole := by
    rw [wholePart, List.takeWhile_append_of_pos hall]
    simp
  have hplaces : placePart (whole ++ '.' :: places) = places := by
    rw [placePart, List.dropWhile_append_of_pos hall]
    simp
  have hten : (10 : ℚ) ^ places.length ≠ 0 := pow_ne_zero _ (by norm_num)
  rw [unsigned, hwhole, hplaces, ofDigitChars_append_zero, zpow_neg, zpow_natCast]
  push_cast
  field_simp

/-- A numeral is digits only, or it is digits around a point. -/
theorem IsNumeral.cases (h : IsNumeral text) :
    (text.toList ≠ [] ∧ ∀ c ∈ text.toList, c.isDigit = true) ∨
    ∃ whole places, text.toList = whole ++ '.' :: places ∧ whole ++ places ≠ [] ∧
      (∀ c ∈ whole, c.isDigit = true) ∧ ∀ c ∈ places, c.isDigit = true := by
  obtain ⟨d, hd, hdigit⟩ := h.digit
  have hpoints := h.points
  rcases digits_or_split h.numerals with hall | ⟨whole, places, hsplit, hw, htail⟩
  · exact Or.inl ⟨List.ne_nil_of_mem hd, hall⟩
  · rw [hsplit] at hpoints hd
    rw [List.count_append, List.count_cons_self, count_point_of_digits hw] at hpoints
    have hp : ∀ c ∈ places, c.isDigit = true := by
      intro c hc
      rcases Token.isNumeral_iff.mp (htail c hc) with hdig | rfl
      · exact hdig
      · have hcount := List.count_pos_iff.mpr hc
        omega
    refine Or.inr ⟨whole, places, hsplit, ?_, hw, hp⟩
    have hmem : d ∈ whole ++ places := by
      rcases List.mem_append.mp hd with hd | hd
      · exact List.mem_append_left _ hd
      · rcases List.mem_cons.mp hd with rfl | hd
        · exact absurd hdigit (by decide)
        · exact List.mem_append_right _ hd
    exact List.ne_nil_of_mem hmem

end Point

/-! ## Numerals -/

section Numerals

/-- A numeral is read as a decimal of the number it denotes. -/
theorem exists_decimal? (h : IsNumeral text) :
    ∃ d : Decimal, decimal? text.toList = some d ∧ d.rational = unsigned text.toList := by
  rcases h.cases with ⟨hne, hall⟩ | ⟨whole, places, hsplit, hne, hw, hp⟩
  · refine ⟨⟨Nat.ofDigitChars 10 text.toList 0, 0⟩, ?_, ?_⟩
    · rw [decimal?_digits hall, natural?_of_digits hall hne]
      rfl
    · rw [unsigned_digits hall, rational, zpow_zero, mul_one]
  · refine ⟨⟨Nat.ofDigitChars 10 (whole ++ places) 0, -(places.length : ℤ)⟩, ?_, ?_⟩
    · rw [hsplit, decimal?_point hw hp, natural?_of_digits (List.forall_mem_append.mpr ⟨hw, hp⟩) hne]
      rfl
    · rw [hsplit, unsigned_point hw, rational]

/-- The number that a numeral denotes is one of as many digits as are significant, times a power of ten. -/
theorem exists_significant (h : IsNumeral text) :
    ∃ d : Decimal, d.rational = unsigned text.toList ∧ d.coefficient < 10 ^ (significant text).length := by
  obtain ⟨ds, p, hds, hfilter, hunsigned⟩ : ∃ ds p, (∀ c ∈ ds, c.isDigit = true) ∧
      text.toList.filter Char.isDigit = ds ∧ unsigned text.toList = Nat.ofDigitChars 10 ds 0 * 10 ^ (p : ℤ) := by
    rcases h.cases with ⟨-, hall⟩ | ⟨whole, places, hsplit, -, hw, hp⟩
    · refine ⟨text.toList, 0, hall, List.filter_eq_self.mpr hall, ?_⟩
      rw [unsigned_digits hall, zpow_zero, mul_one]
    · refine ⟨whole ++ places, _, List.forall_mem_append.mpr ⟨hw, hp⟩, ?_, hsplit ▸ unsigned_point hw⟩
      have hpoint : Char.isDigit '.' = false := by decide
      rw [hsplit, List.filter_append, List.filter_cons, hpoint, List.filter_eq_self.mpr hw, List.filter_eq_self.mpr hp]
      rfl
  obtain ⟨j, hj⟩ := ofDigitChars_eq_significant ds
  refine ⟨⟨Nat.ofDigitChars 10 ((ds.dropWhile (· == '0')).rdropWhile (· == '0')) 0, p + j⟩, ?_, ?_⟩
  · rw [hunsigned, hj, rational, zpow_add₀ (by norm_num), zpow_natCast, Nat.cast_mul, Nat.cast_pow, Nat.cast_ofNat]
    ring
  · rw [significant, hfilter]
    refine ofDigitChars_lt fun c hc => hds c ?_
    exact (List.dropWhile_sublist _).subset ((List.rdropWhile_prefix _ _).subset hc)

theorem denoted_of_isNumeral (h : IsNumeral text) : denoted text = unsigned text.toList := by
  rw [denoted, if_neg]
  intro hhead
  exact ne_minus_of_isNumeral (h.numerals '-' (List.mem_of_head? hhead)) rfl

theorem denoted_minus (text : String) : denoted ("-" ++ text) = -unsigned text.toList := by
  have hlist : ("-" ++ text).toList = '-' :: text.toList := by simp
  rw [denoted, hlist]
  rfl

theorem significant_minus (text : String) : significant ("-" ++ text) = significant text := by
  have hminus : Char.isDigit '-' = false := by decide
  rw [significant, significant, String.toList_append, List.filter_append]
  simp [hminus]

/-- So it is with a minus sign in front, but for the sign. -/
theorem IsSigned.exists_significant {s : String} (h : IsSigned s) :
    ∃ d : Decimal, d.rational = |denoted s| ∧ d.coefficient < 10 ^ (significant s).length := by
  rcases h with h | ⟨text, h, rfl⟩
  · obtain ⟨d, hd, hlt⟩ := Literal.exists_significant h
    refine ⟨d, ?_, hlt⟩
    rw [denoted_of_isNumeral h, ← hd, abs_of_nonneg d.rational_nonneg]
  · obtain ⟨d, hd, hlt⟩ := Literal.exists_significant h
    refine ⟨d, ?_, significant_minus text ▸ hlt⟩
    rw [denoted_minus, abs_neg, ← hd, abs_of_nonneg d.rational_nonneg]

/-- A numeral is read as the code nearest to the number it denotes. -/
theorem exists_value? (h : IsNumeral text) :
    ∃ d : Decimal, d.rational = denoted text ∧ value? text = some (Binary64.ofCode false d.nearestCode) := by
  obtain ⟨d, hd, hrational⟩ := exists_decimal? h
  refine ⟨d, hrational.trans (denoted_of_isNumeral h).symm, ?_⟩
  rw [value?, splitSign_of_numerals h.numerals]
  show (code? text.toList).map _ = _
  rw [code?, word?_of_numerals h.numerals, hd]
  rfl

end Numerals

end DeskCalc.Literal
