import DeskCalc.Proofs.Numeral
import DeskCalc.Proofs.Rounding

/-!
# DeskCalc.Proofs.Spelling — a decimal written in full is read as a decimal of the same value

* The digits of a number, with or without zeros before them, are read as that number (`natural?_toDigits`,
  `natural?_paddedDigits`).
* `exists_decimal?_plain`: the plain spelling of a decimal is read as a decimal with the same code.
* `isNumeral_plain`: it consists of digits with at most one point, and it starts with a digit (`head?_plain`).
-/

namespace DeskCalc

open Literal

namespace Decimal

variable {n width : ℕ} {whole places : List Char} {d : Decimal}

/-! ## Digits -/

section Digits

theorem isDigit_toDigits : ∀ c ∈ Nat.toDigits 10 n, c.isDigit = true :=
  fun _ hc => Nat.isDigit_of_mem_toDigits (by decide) (by decide) hc

theorem natural?_of_digits {cs : List Char} (h : ∀ c ∈ cs, c.isDigit = true) (hne : cs ≠ []) :
    natural? cs = some (Nat.ofDigitChars 10 cs 0) :=
  if_pos ⟨hne, List.all_eq_true.mpr h⟩

theorem natural?_toDigits (n : ℕ) : natural? (Nat.toDigits 10 n) = some n := by
  rw [natural?_of_digits isDigit_toDigits Nat.toDigits_ne_nil, Nat.ofDigitChars_ten_toDigits]

theorem isDigit_paddedDigits : ∀ c ∈ paddedDigits width n, c.isDigit = true := by
  intro c hc
  rcases List.mem_append.mp hc with hc | hc
  · rw [List.eq_of_mem_replicate hc]
    rfl
  · exact isDigit_toDigits c hc

theorem le_length_paddedDigits : width ≤ (paddedDigits width n).length := by
  simp only [paddedDigits, List.length_append, List.length_replicate]
  omega

theorem natural?_paddedDigits (width n : ℕ) : natural? (paddedDigits width n) = some n := by
  have hne : paddedDigits width n ≠ [] := List.append_ne_nil_of_right_ne_nil _ Nat.toDigits_ne_nil
  rw [natural?_of_digits isDigit_paddedDigits hne]
  simp only [paddedDigits, Nat.ofDigitChars_append, Nat.ofDigitChars_replicate_zero, Nat.mul_zero,
    Nat.ofDigitChars_ten_toDigits]

end Digits

/-! ## Digits around a point -/

section Point

theorem decimal?_point (hw : ∀ c ∈ whole, c.isDigit = true) (hp : ∀ c ∈ places, c.isDigit = true) :
    decimal? (whole ++ '.' :: places) =
      (natural? (whole ++ places)).map fun n => ⟨n, -(places.length : ℤ)⟩ := by
  have hpoint : ('.' :: places).takeWhile Char.isDigit = [] := rfl
  have ht : (whole ++ '.' :: places).takeWhile Char.isDigit = whole := by
    rw [List.takeWhile_append_of_pos hw, hpoint, List.append_nil]
  have hd : (whole ++ '.' :: places).dropWhile Char.isDigit = '.' :: places := by
    rw [List.dropWhile_append_of_pos hw]
    rfl
  have htp : places.takeWhile Char.isDigit = places := List.takeWhile_eq_self_iff.mpr hp
  have hdp : places.dropWhile Char.isDigit = [] := List.dropWhile_eq_nil_iff.mpr hp
  rw [decimal?, ht, hd]
  cases hn : natural? (whole ++ places) <;> simp [splitPlaces, htp, hdp, exponent?, hn]

/-- What is written before and after the point. -/
theorem plain_split (c k : ℕ) :
    ∃ whole places, plain ⟨c, .negSucc k⟩ = whole ++ '.' :: places ∧ whole ++ places = paddedDigits (k + 2) c ∧
      places.length = k + 1 ∧ whole ≠ [] := by
  have hlen : k + 2 ≤ (paddedDigits (k + 2) c).length := le_length_paddedDigits
  refine ⟨(paddedDigits (k + 2) c).take ((paddedDigits (k + 2) c).length - (k + 1)),
    (paddedDigits (k + 2) c).drop ((paddedDigits (k + 2) c).length - (k + 1)), rfl, List.take_append_drop .., ?_, ?_⟩
  · rw [List.length_drop]
    omega
  · refine List.ne_nil_of_length_pos ?_
    rw [List.length_take]
    omega

end Point

/-! ## The plain spelling -/

section Plain

/-- A decimal without places is its digits. -/
theorem plain_ofNat (c k : ℕ) : plain ⟨c, .ofNat k⟩ = Nat.toDigits 10 (c * 10 ^ k) := by
  simp only [plain, Nat.pow_eq]

/-- The plain spelling is read as a decimal with the same code. -/
theorem exists_decimal?_plain (d : Decimal) : ∃ d', decimal? d.plain = some d' ∧ d'.nearestCode = d.nearestCode := by
  obtain ⟨c, e⟩ := d
  cases e with
  | ofNat k =>
    refine ⟨⟨c * 10 ^ k, 0⟩, ?_, ?_⟩
    · rw [plain_ofNat, decimal?_digits isDigit_toDigits, natural?_toDigits]
      rfl
    · rw [nearestCode_eq, nearestCode_eq]
      simp
  | negSucc k =>
    obtain ⟨whole, places, hplain, hdigits, hlen, -⟩ := plain_split c k
    have hall : ∀ c' ∈ whole ++ places, c'.isDigit = true := hdigits ▸ isDigit_paddedDigits
    obtain ⟨hw, hp⟩ := List.forall_mem_append.mp hall
    refine ⟨⟨c, .negSucc k⟩, ?_, rfl⟩
    rw [hplain, decimal?_point hw hp, hdigits, natural?_paddedDigits, hlen]
    rfl

/-- Digits, the first of them set apart, with at most one point after it. -/
theorem plain_cases (d : Decimal) :
    ∃ c cs, d.plain = c :: cs ∧ c.isDigit = true ∧ (∀ c ∈ cs, Token.isNumeral c = true) ∧ cs.count '.' ≤ 1 := by
  have hnumeral : ∀ {cs : List Char}, (∀ c ∈ cs, c.isDigit = true) → ∀ c ∈ cs, Token.isNumeral c = true :=
    fun h c hc => Token.isNumeral_iff.mpr (Or.inl (h c hc))
  obtain ⟨c, e⟩ := d
  cases e with
  | ofNat k =>
    obtain ⟨a, as, has⟩ := List.exists_cons_of_ne_nil (Nat.toDigits_ne_nil (n := c * 10 ^ k) (b := 10))
    have hall : ∀ c' ∈ a :: as, c'.isDigit = true := has ▸ isDigit_toDigits
    obtain ⟨ha, has'⟩ := List.forall_mem_cons.mp hall
    exact ⟨a, as, (plain_ofNat c k).trans has, ha, hnumeral has', by simp [count_point_of_digits has']⟩
  | negSucc k =>
    obtain ⟨whole, places, hplain, hdigits, -, hne⟩ := plain_split c k
    obtain ⟨a, as, rfl⟩ := List.exists_cons_of_ne_nil hne
    have hall : ∀ c' ∈ (a :: as) ++ places, c'.isDigit = true := hdigits ▸ isDigit_paddedDigits
    obtain ⟨hw, hp⟩ := List.forall_mem_append.mp hall
    obtain ⟨ha, has⟩ := List.forall_mem_cons.mp hw
    refine ⟨a, as ++ '.' :: places, hplain, ha, ?_, ?_⟩
    · refine List.forall_mem_append.mpr ⟨hnumeral has, List.forall_mem_cons.mpr ⟨by decide, hnumeral hp⟩⟩
    · rw [List.count_append, List.count_cons_self, count_point_of_digits has, count_point_of_digits hp]

theorem isNumeral_plain (d : Decimal) : IsNumeral (String.ofList d.plain) := by
  obtain ⟨c, cs, hplain, hc, hcs, hcount⟩ := plain_cases d
  have hpoint : (c == '.') = false := by
    rw [beq_eq_false_iff_ne]
    rintro rfl
    exact absurd hc (by decide)
  rw [hplain]
  refine ⟨?_, ?_, ?_⟩
  · rw [String.toList_ofList]
    exact List.forall_mem_cons.mpr ⟨Token.isNumeral_iff.mpr (Or.inl hc), hcs⟩
  · simpa [List.count_cons, hpoint] using hcount
  · exact ⟨c, by simp, hc⟩

/-- The plain spelling starts with a digit. -/
theorem head?_plain (d : Decimal) : ∃ c, d.plain.head? = some c ∧ c.isDigit = true := by
  obtain ⟨c, cs, hplain, hc, -⟩ := plain_cases d
  exact ⟨c, by rw [hplain, List.head?_cons], hc⟩

end Plain

end Decimal

/-! ## Literals -/

section Literals

open Decimal Binary64

/-- The plain spelling of a decimal is read as its code, and so it is after a minus sign. -/
theorem Literal.value?_plain (d : Decimal) :
    value? (String.ofList d.plain) = some (ofCode false d.nearestCode) ∧
      value? ("-" ++ String.ofList d.plain) = some (ofCode true d.nearestCode) := by
  have hnumerals : ∀ c ∈ d.plain, Token.isNumeral c = true := by
    simpa using (isNumeral_plain d).numerals
  obtain ⟨d', hd', hcode⟩ := exists_decimal?_plain d
  have hplain : code? d.plain = some d.nearestCode := by
    rw [code?, word?_of_numerals hnumerals, hd', ← hcode]
    rfl
  constructor
  · rw [value?, String.toList_ofList, splitSign_of_numerals hnumerals]
    show (code? d.plain).map _ = _
    rw [hplain]
    rfl
  · have hsign : splitSign ("-" ++ String.ofList d.plain).toList = (true, d.plain) := by
      simp [splitSign]
    rw [value?, hsign]
    show (code? d.plain).map _ = _
    rw [hplain]
    rfl

end Literals

end DeskCalc
