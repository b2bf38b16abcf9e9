import DeskCalc.Proofs.Result
import DeskCalc.Proofs.Value

/-!
# DeskCalc.Proofs.Integer — expressions over the integers up to `2 ^ 53`

* `Expr.integer?` computes a tree in exact arithmetic; there is no value as soon as a literal is not a string of digits,
  a division is not exact, or a number on the way is larger than `2 ^ 53`.
* Every integer of this range is the value of a float (`exists_isInteger`), its literal is read as it
  (`isInteger_literal`), the operations keep to it (`IsInteger.apply`), and it is written with its digits
  (`IsInteger.text_eq`).
* `evaluate_integers`: so a sentence with an exact value has the digits of this value as its outcome.
-/

namespace DeskCalc

open Token Grammar Literal Binary64

variable {s text : String} {ts : List Token} {e : Expr} {o : Operator} {x y : Float} {a b n : ℤ} {c k m : ℕ}

/-! ## Exact arithmetic -/

/-- The largest integer up to which all integers are values of the format. -/
def exactBound : ℕ := 2 ^ 53

/-- An operation on integers, if its value is an integer. -/
def Operator.onIntegers? : Operator → ℤ → ℤ → Option ℤ
  | add, a, b => some (a + b)
  | sub, a, b => some (a - b)
  | mul, a, b => some (a * b)
  | div, a, b => if b ≠ 0 ∧ b ∣ a then some (a / b) else none

/-- Exact arithmetic on integers is exact arithmetic. -/
theorem Operator.onRationals?_cast (h : o.onIntegers? a b = some n) : o.onRationals? a b = some (n : ℚ) := by
  cases o with
  | add =>
    obtain rfl := Option.some.inj h
    exact congrArg some (Int.cast_add a b).symm
  | sub =>
    obtain rfl := Option.some.inj h
    exact congrArg some (Int.cast_sub a b).symm
  | mul =>
    obtain rfl := Option.some.inj h
    exact congrArg some (Int.cast_mul a b).symm
  | div =>
    rw [onIntegers?] at h
    split_ifs at h with hdiv
    obtain rfl := Option.some.inj h
    have hb : (b : ℚ) ≠ 0 := Int.cast_ne_zero.mpr hdiv.1
    rw [onRationals?, if_neg hb, Int.cast_div hdiv.2 hb]

/-- An integer, if it is in the range in which all integers are values of the format. -/
def inRange? (n : ℤ) : Option ℤ := if n.natAbs ≤ exactBound then some n else none

/-- The exact value of a tree of integers, if every number on the way is an integer in the range. -/
def Expr.integer? : Expr → Option ℤ
  | num text => (natural? text.toList).bind fun n => inRange? n
  | node o l r =>
    match l.integer?, r.integer? with
    | some a, some b => (o.onIntegers? a b).bind inRange?
    | _, _ => none

theorem inRange?_eq_some_iff : inRange? a = some n ↔ a = n ∧ n.natAbs ≤ exactBound := by
  unfold inRange?
  split_ifs with h
  · rw [Option.some_inj]
    exact ⟨fun han => ⟨han, han ▸ h⟩, And.left⟩
  · constructor
    · rintro ⟨⟩
    · rintro ⟨rfl, hn⟩
      exact absurd hn h

/-! ## Integers among the floats -/

namespace Binary64

open Decimal (allPlaces)

/-- A finite float with an integer value; it may be a negative zero. -/
structure IsInteger (x : Float) (n : ℤ) : Prop where
  finite : x.isFinite = true
  value_eq : value x = n

/-- An integer of 53 bits times a power of two is the value of a code. -/
theorem exists_units_eq (hm : m < 2 ^ 53) (hk : k ≤ 2045) : ∃ c < infinity, units c = m * 2 ^ k := by
  rw [infinity_eq]
  induction k generalizing m with
  | zero =>
    refine ⟨m, by omega, ?_⟩
    rcases Nat.lt_or_ge m (2 ^ 52) with hlt | hge
    · rw [units_of_lt hlt, Nat.pow_zero, Nat.mul_one]
    · have hdiv : m / 2 ^ 52 - 1 = 0 := by omega
      have hmod : 2 ^ 52 + m % 2 ^ 52 = m := by omega
      rw [units_of_le hge, hdiv, hmod]
  | succ k ih =>
    rcases Nat.lt_or_ge m (2 ^ 52) with hlt | hge
    · -- there is room for one more digit
      obtain ⟨c, hc, hunits⟩ := ih (m := 2 * m) (by omega) (by omega)
      refine ⟨c, hc, ?_⟩
      rw [hunits, Nat.pow_succ]
      ring
    · have hdiv : ((k + 1) * 2 ^ 52 + m) / 2 ^ 52 - 1 = k + 1 := by omega
      have hmod : 2 ^ 52 + ((k + 1) * 2 ^ 52 + m) % 2 ^ 52 = m := by omega
      refine ⟨(k + 1) * 2 ^ 52 + m, by omega, ?_⟩
      rw [units_of_le (by omega), hdiv, hmod]

/-- The integers of the range are values of codes. -/
theorem exists_units_eq_integer (h : m ≤ exactBound) : ∃ c < infinity, units c = m * unitsPerOne := by
  have hplaces : allPlaces = 1074 := allPlaces_eq
  rw [unitsPerOne_eq]
  rcases Nat.lt_or_eq_of_le h with hlt | rfl
  · exact exists_units_eq hlt (by omega)
  · -- one more bit, and it is zero
    obtain ⟨c, hc, hunits⟩ := exists_units_eq (m := 2 ^ 52) (k := allPlaces + 1) (by omega) (by omega)
    refine ⟨c, hc, ?_⟩
    rw [hunits, exactBound]
    ring

theorem isInteger_ofCode (negative : Bool) (hc : c < infinity) (h : units c = m * unitsPerOne) :
    IsInteger (ofCode negative c) (if negative then -(m : ℤ) else m) := by
  have hone : (unitsPerOne : ℚ) ≠ 0 := Nat.cast_ne_zero.mpr unitsPerOne_pos.ne'
  refine ⟨isFinite_ofCode hc, ?_⟩
  rw [value, code_ofCode hc.le, isNegative_ofCode hc.le, h, Nat.cast_mul, mul_div_cancel_right₀ _ hone]
  cases negative <;> simp

/-- The integers of the range are values of floats. -/
theorem exists_isInteger (h : n.natAbs ≤ exactBound) : ∃ z, IsInteger z n := by
  obtain ⟨c, hc, hunits⟩ := exists_units_eq_integer h
  rcases Int.natAbs_eq n with hn | hn
  · rw [hn]
    exact ⟨_, isInteger_ofCode false hc hunits⟩
  · rw [hn]
    exact ⟨_, isInteger_ofCode true hc hunits⟩

/-- An operation whose value is an integer of the range has this value. -/
theorem IsInteger.apply (hx : IsInteger x a) (hy : IsInteger y b) (h : o.onIntegers? a b = some n)
    (hn : n.natAbs ≤ exactBound) : IsInteger (o.apply x y) n := by
  obtain ⟨z, hz⟩ := exists_isInteger hn
  have hexact : o.onRationals? (value x) (value y) = some (value z) := by
    rw [hx.value_eq, hy.value_eq, hz.value_eq]
    exact Operator.onRationals?_cast h
  obtain ⟨hfinite, hvalue⟩ := apply_exact hx.finite hy.finite hz.finite hexact
  exact ⟨hfinite, hvalue.trans hz.value_eq⟩

/-! ### Their text -/

theorem toString_int (n : ℤ) : toString n = (if n < 0 then "-" else "") ++ toString n.natAbs := by
  cases n with
  | ofNat m =>
    have hle : ¬Int.ofNat m < 0 := Int.not_lt.mpr (Int.natCast_nonneg m)
    rw [if_neg hle]
    exact String.empty_append.symm
  | negSucc m =>
    rw [if_pos (Int.negSucc_lt_zero m)]
    rfl

theorem numeral_of_units (h : units c = m * unitsPerOne) : Answer.numeral c = toString m := by
  have hdiv : units c / unitsPerOne = m := by rw [h, Nat.mul_div_cancel _ unitsPerOne_pos]
  have hmod : units c % unitsPerOne = 0 := by rw [h, Nat.mul_mod_left]
  have hplain : (Decimal.mk m 0).plain = Nat.toDigits 10 m := by
    simpa using Decimal.plain_ofNat m 0
  rw [Answer.numeral, Answer.decimal, if_pos hmod, hdiv, hplain]
  rfl

theorem units_eq_zero_iff : units c = 0 ↔ c = 0 := by
  rcases Nat.lt_or_ge c (2 ^ 52) with hlt | hge
  · rw [units_of_lt hlt]
  · rw [units_of_le hge]
    have hpos : 0 < (2 ^ 52 + c % 2 ^ 52) * 2 ^ (c / 2 ^ 52 - 1) := by positivity
    omega

/-- The magnitude and the sign of an integer, in terms of the code. -/
theorem IsInteger.code_spec (hx : IsInteger x n) :
    units (code x) = n.natAbs * unitsPerOne ∧ ((isNegative x = true ∧ code x ≠ 0) ↔ n < 0) := by
  have hone : (0 : ℚ) < unitsPerOne := Nat.cast_pos.mpr unitsPerOne_pos
  obtain ⟨q, hq⟩ : ∃ q, (units (code x) : ℚ) / unitsPerOne = q := ⟨_, rfl⟩
  have hpos : 0 ≤ q := hq ▸ div_nonneg (Nat.cast_nonneg _) hone.le
  have hvalue := hx.value_eq
  rw [value, hq] at hvalue
  have hunits : units (code x) = n.natAbs * unitsPerOne := by
    have habs : q = n.natAbs := by
      rw [Nat.cast_natAbs, Int.cast_abs, ← hvalue, abs_mul, abs_of_nonneg hpos]
      cases isNegative x <;> simp
    rw [div_eq_iff hone.ne', habs] at hq
    exact_mod_cast hq
  have hzero : code x = 0 ↔ n = 0 := by
    rw [← units_eq_zero_iff, hunits, Nat.mul_eq_zero, Int.natAbs_eq_zero]
    exact or_iff_left unitsPerOne_pos.ne'
  refine ⟨hunits, ?_⟩
  rw [Ne, hzero]
  cases hneg : isNegative x with
  | true =>
    have hle : (n : ℚ) ≤ 0 := by
      rw [← hvalue, hneg]
      simpa using hpos
    have hle' : n ≤ 0 := by exact_mod_cast hle
    simp only [true_and]
    omega
  | false =>
    have hle : (0 : ℚ) ≤ n := by
      rw [← hvalue, hneg]
      simpa using hpos
    have hle' : 0 ≤ n := by exact_mod_cast hle
    simp only [Bool.false_eq_true, false_and, false_iff]
    omega

/-- An integer is written with its digits, and with a minus sign if it is negative. -/
theorem IsInteger.text_eq (hx : IsInteger x n) : Answer.text x = toString n := by
  obtain ⟨hunits, hsign⟩ := hx.code_spec
  rw [Answer.text_of_code_lt (isFinite_iff.mp hx.finite), numeral_of_units hunits, toString_int]
  simp only [hsign]

end Binary64

/-! ## Literals and trees -/

theorem natural?_eq_some {cs : List Char} (h : natural? cs = some k) : cs ≠ [] ∧ ∀ c ∈ cs, c.isDigit = true := by
  unfold natural? at h
  split_ifs at h with hdigits
  exact ⟨hdigits.1, List.all_eq_true.mp hdigits.2⟩

theorem isNumeral_of_natural? (h : natural? text.toList = some k) : IsNumeral text := by
  obtain ⟨hne, hdigits⟩ := natural?_eq_some h
  obtain ⟨c, hc⟩ := List.exists_mem_of_ne_nil _ hne
  refine ⟨fun c hc => isNumeral_iff.mpr (Or.inl (hdigits c hc)), ?_, c, hc, hdigits c hc⟩
  exact (count_point_of_digits hdigits).le.trans (Nat.zero_le 1)

/-- A literal of digits is read as its number. -/
theorem isInteger_literal (h : natural? text.toList = some k) (hk : k ≤ exactBound) :
    ∃ x, value? text = some x ∧ IsInteger x k := by
  have hnumerals := (isNumeral_of_natural? h).numerals
  obtain ⟨c, hc, hunits⟩ := exists_units_eq_integer hk
  have hround : Decimal.nearestCode ⟨k, 0⟩ = c := Decimal.nearestCode_of_units hc.le hunits
  have hcode : code? text.toList = some c := by
    rw [code?, word?_of_numerals hnumerals, decimal?_digits (natural?_eq_some h).2, h, ← hround]
    rfl
  refine ⟨ofCode false c, ?_, isInteger_ofCode false hc hunits⟩
  rw [value?, splitSign_of_numerals hnumerals]
  exact congrArg (Option.map (ofCode false)) hcode

theorem isNumeral_of_integer? (h : e.integer? = some n) : ∀ t ∈ e.literals, IsNumeral t := by
  induction e generalizing n with
  | num text =>
    obtain ⟨k, hk, -⟩ := Option.bind_eq_some_iff.mp h
    exact isNumeral_num (isNumeral_of_natural? hk)
  | node o l r ihl ihr =>
    rw [Expr.integer?] at h
    split at h
    · rename_i a b hl hr
      exact List.forall_mem_append.mpr ⟨ihl hl, ihr hr⟩
    · cases h

/-- The value of a tree is the exact one, if that exists. -/
theorem exists_value_of_integer? (h : e.integer? = some n) : ∃ x, e.value? = some x ∧ IsInteger x n := by
  induction e generalizing n with
  | num text =>
    obtain ⟨k, hk, hrange⟩ := Option.bind_eq_some_iff.mp h
    obtain ⟨rfl, hle⟩ := inRange?_eq_some_iff.mp hrange
    exact isInteger_literal hk hle
  | node o l r ihl ihr =>
    rw [Expr.integer?] at h
    split at h
    · rename_i a b hl hr
      obtain ⟨m, hm, hrange⟩ := Option.bind_eq_some_iff.mp h
      obtain ⟨rfl, hle⟩ := inRange?_eq_some_iff.mp hrange
      obtain ⟨x, hx, hxa⟩ := ihl hl
      obtain ⟨y, hy, hyb⟩ := ihr hr
      refine ⟨o.apply x y, ?_, hxa.apply hyb hm hle⟩
      rw [Expr.value?, hx, hy]
    · cases h

/-- **Integer arithmetic is exact**: the outcome of a sentence whose tree has an exact value in integers, all of them of
magnitude at most `2 ^ 53`, consists of the digits of this value, with a minus sign if it is negative. -/
theorem evaluate_integers (h : Sentence .sum ts e) (hs : Spaced ts s.toList) (hn : e.integer? = some n) :
    evaluate s = .ok (toString n) := by
  obtain ⟨x, hv, hx⟩ := exists_value_of_integer? hn
  rw [evaluate_of_value h (isNumeral_of_integer? hn) hs hv, finiteText, if_pos hx.finite, hx.text_eq]

/-- A negative zero and the end of the range on the way to a quotient. -/
theorem evaluate_integers_quotient :
    (Expr.node .div (.node .sub (.node .mul (.node .sub (.num "2") (.num "5")) (.num "0")) (.num "9007199254740992"))
      (.num "2")).integer? = some (-4503599627370496) ∧
    evaluate "((2-5)*0-9007199254740992)/2" = .ok "-4503599627370496" := by
  have hgroup : Sentence .product [lparen, num "2", op .sub, num "5", rparen] (.node .sub (.num "2") (.num "5")) :=
    .factor (.group (.plus (Or.inr rfl) (.product (.factor (.num "2"))) (.factor (.num "5"))))
  have hdifference : Sentence .sum
      ([lparen, num "2", op .sub, num "5", rparen] ++ op .mul :: [num "0"] ++ op .sub :: [num "9007199254740992"])
      (.node .sub (.node .mul (.node .sub (.num "2") (.num "5")) (.num "0")) (.num "9007199254740992")) :=
    .plus (Or.inr rfl) (.product (.times (Or.inl rfl) hgroup (.num "0"))) (.factor (.num "9007199254740992"))
  have hs : Spaced [lparen, lparen, num "2", op .sub, num "5", rparen, op .mul, num "0", op .sub,
      num "9007199254740992", rparen, op .div, num "2"] "((2-5)*0-9007199254740992)/2".toList := by
    simpa [Token.text, Operator.symbol] using spaced_texts [lparen, lparen, num "2", op .sub, num "5", rparen, op .mul,
      num "0", op .sub, num "9007199254740992", rparen, op .div, num "2"]
  have hn : (Expr.node .div (.node .sub (.node .mul (.node .sub (.num "2") (.num "5")) (.num "0"))
      (.num "9007199254740992")) (.num "2")).integer? = some (-4503599627370496) := by decide +kernel
  have htext : toString (-4503599627370496 : ℤ) = "-4503599627370496" := by decide +kernel
  refine ⟨hn, ?_⟩
  rw [← htext]
  exact evaluate_integers (.product (.times (Or.inr rfl) (.factor (.group hdifference)) (.num "2"))) hs hn

-- the first integer beyond the range is not a value of the format
example : evaluate "9007199254740992+1" = .ok "9007199254740992" := by decide +kernel

end DeskCalc
