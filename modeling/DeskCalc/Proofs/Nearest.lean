import DeskCalc.Proofs.Interval
import DeskCalc.Proofs.Value

/-!
# DeskCalc.Proofs.Nearest — rounding gives the nearest value, and of two the even one

* `middle c`: the number half-way between the values of a code and the next one.  Rounding counts the middles below a
  quotient (`nearest_le_iff_middle`), so it is monotone (`nearest_mono`), and infinity begins at the last middle
  (`nearest_eq_infinity_iff`).
* `IsNearest q x`: no finite float has a value closer to `q` than `x`, and if one of another value is as close, the code
  of `x` is even.
* `isNearest_nearest`, `IsNearest.nearest_eq`: rounding a quotient gives the float that is nearest to it, and no other
  magnitude is.
* For a decimal, whatever its coefficient and its exponent are: `Decimal.isNearest_nearestCode`,
  `Decimal.nearestCode_eq_code`, `Decimal.nearestCode_mono`, `Decimal.nearestCode_eq_infinity_iff`.
-/

namespace DeskCalc

namespace Binary64

open Decimal (allPlaces)

variable {num den num' den' b c c' : ℕ} {q u v w : ℚ} {x y : Float}

/-! ## Values of codes -/

section Magnitudes

/-- The value of a code. -/
def magnitude (c : ℕ) : ℚ := units c / unitsPerOne

/-- The number half-way between the values of a code and the next one. -/
def middle (c : ℕ) : ℚ := (magnitude c + magnitude (c + 1)) / 2

/-- The number from which on there is no finite value to round to. -/
def bound : ℚ := 2 ^ 1024 - 2 ^ 970

theorem cast_unitsPerOne_pos : (0 : ℚ) < unitsPerOne := Nat.cast_pos.mpr unitsPerOne_pos

theorem strictMono_magnitude : StrictMono magnitude := fun _ _ h =>
  div_lt_div_of_pos_right (Nat.cast_lt.mpr (strictMono_units h)) cast_unitsPerOne_pos

theorem magnitude_zero : magnitude 0 = 0 := by
  rw [magnitude, units_of_lt (by decide), Nat.cast_zero, zero_div]

theorem magnitude_nonneg (c : ℕ) : 0 ≤ magnitude c := by
  rw [← magnitude_zero]
  exact strictMono_magnitude.monotone (Nat.zero_le c)

theorem magnitude_eq_zero_iff : magnitude c = 0 ↔ c = 0 := by
  rw [← magnitude_zero]
  exact strictMono_magnitude.injective.eq_iff

theorem value_eq_or_neg (x : Float) :
    (isNegative x = false ∧ value x = magnitude (code x)) ∨ (isNegative x = true ∧ value x = -magnitude (code x)) := by
  have hvalue : value x = (if isNegative x then -1 else 1) * magnitude (code x) := rfl
  rw [hvalue]
  cases isNegative x <;> simp

theorem value_ofCode (negative : Bool) (hc : c < infinity) :
    value (ofCode negative c) = (if negative then -1 else 1) * magnitude c := by
  rw [value, code_ofCode hc.le, isNegative_ofCode hc.le, magnitude]

theorem value_ofCode_false (hc : c < infinity) : value (ofCode false c) = magnitude c := by
  simp [value_ofCode false hc]

theorem magnitude_code (x : Float) : magnitude (code x) = |value x| := by
  rcases value_eq_or_neg x with ⟨-, h⟩ | ⟨-, h⟩
  · rw [h, abs_of_nonneg (magnitude_nonneg _)]
  · rw [h, abs_neg, abs_of_nonneg (magnitude_nonneg _)]

theorem value_eq_zero_iff : value x = 0 ↔ code x = 0 := by
  rw [← magnitude_eq_zero_iff, magnitude_code, abs_eq_zero]

theorem value_lt_zero_iff : value x < 0 ↔ isNegative x = true ∧ code x ≠ 0 := by
  have hnonneg := magnitude_nonneg (code x)
  rcases value_eq_or_neg x with ⟨hsign, hvalue⟩ | ⟨hsign, hvalue⟩
  · rw [hvalue, hsign]
    simpa using hnonneg
  · rw [hvalue, hsign, neg_lt_zero, hnonneg.lt_iff_ne', Ne, magnitude_eq_zero_iff]
    simp

/-- The last middle: the greatest finite code has a number of 53 ones. -/
theorem middle_last : middle (infinity - 1) = bound := by
  have hlast : infinity - 1 = 2045 * 2 ^ 52 + (2 ^ 53 - 1) := by
    rw [infinity_eq]
    rfl
  have hunits : units (infinity - 1) = (2 ^ 53 - 1) * 2 ^ 2045 := by
    rw [hlast]
    exact units_scaled (by decide) (Or.inr (by decide))
  have hnext : units (infinity - 1 + 1) = (2 ^ 53 - 1 + 1) * 2 ^ 2045 := by
    rw [hlast]
    exact units_scaled_succ (by decide) (Or.inr (by decide))
  have hone : (unitsPerOne : ℚ) = 2 ^ allPlaces := by
    rw [unitsPerOne_eq, Nat.cast_pow, Nat.cast_ofNat]
  have hpow : (2 : ℚ) ^ 2045 = 2 ^ 971 * 2 ^ allPlaces := by
    rw [allPlaces_eq, ← pow_add]
  have hbound : bound = (2 ^ 54 - 1) * 2 ^ 970 := by
    rw [bound, sub_mul, ← pow_add, one_mul]
  have hstep : (2 : ℚ) ^ 971 = 2 ^ 970 * 2 := pow_succ 2 970
  have hplaces : (0 : ℚ) < 2 ^ allPlaces := pow_pos two_pos _
  rw [middle, magnitude, magnitude, hunits, hnext, hone, hbound, ← add_div, ← Nat.cast_add, ← Nat.add_mul, Nat.cast_mul,
    Nat.cast_pow, Nat.cast_ofNat, hpow, ← mul_assoc, mul_div_cancel_right₀ _ hplaces.ne', hstep]
  generalize (2 : ℚ) ^ 970 = p
  norm_num
  ring

end Magnitudes

/-! ## Rounding as counting middles -/

section Middles

theorem atMost_iff (hd : 0 < den) :
    AtMost (num * unitsPerOne) den c ↔ (num / den : ℚ) < middle c ∨ ((num / den : ℚ) = middle c ∧ c % 2 = 0) := by
  have hden : (0 : ℚ) < den := Nat.cast_pos.mpr hd
  have hone := cast_unitsPerOne_pos
  have hmiddle : middle c = ((units c + units (c + 1) : ℕ) : ℚ) / (2 * unitsPerOne) := by
    rw [middle, magnitude, magnitude, ← add_div, div_div, mul_comm (unitsPerOne : ℚ), Nat.cast_add]
  have hlt : (num / den : ℚ) < middle c ↔ 2 * (num * unitsPerOne) < (units c + units (c + 1)) * den := by
    rw [hmiddle, div_lt_div_iff₀ hden (mul_pos two_pos hone), ← Nat.cast_lt (α := ℚ), mul_left_comm]
    push_cast
    rfl
  have heq : (num / den : ℚ) = middle c ↔ 2 * (num * unitsPerOne) = (units c + units (c + 1)) * den := by
    rw [hmiddle, div_eq_div_iff hden.ne' (mul_pos two_pos hone).ne', ← Nat.cast_inj (R := ℚ), mul_left_comm]
    push_cast
    rfl
  rw [AtMost, hlt, heq]

/-- A quotient is rounded to at most a finite code if it is below the middle behind it, or there and the code is even. -/
theorem nearest_le_iff_middle (hd : 0 < den) (hc : c < infinity) :
    nearest num den ≤ c ↔ (num / den : ℚ) < middle c ∨ ((num / den : ℚ) = middle c ∧ c % 2 = 0) :=
  (nearest_le_iff hd hc).trans (atMost_iff hd)

/-- Rounding is monotone. -/
theorem nearest_mono (hd : 0 < den) (hd' : 0 < den') (h : (num / den : ℚ) ≤ num' / den') :
    nearest num den ≤ nearest num' den' := by
  rcases (nearest_le_infinity num' den').lt_or_eq with hlt | heq
  · rw [nearest_le_iff_middle hd hlt]
    rcases (nearest_le_iff_middle hd' hlt).mp le_rfl with hbelow | ⟨hmiddle, heven⟩
    · exact Or.inl (h.trans_lt hbelow)
    · exact (h.trans_eq hmiddle).lt_or_eq.imp_right fun hq => ⟨hq, heven⟩
  · rw [heq]
    exact nearest_le_infinity num den

/-- The last middle is rounded to infinity, since the last finite code is odd. -/
theorem nearest_eq_infinity_iff (hd : 0 < den) : nearest num den = infinity ↔ bound ≤ (num / den : ℚ) := by
  have hpos : 0 < infinity := by
    rw [infinity_eq]
    decide
  have hodd : ¬(infinity - 1) % 2 = 0 := by
    rw [infinity_eq]
    decide
  have hiff : nearest num den = infinity ↔ ¬nearest num den ≤ infinity - 1 := by
    have hle := nearest_le_infinity num den
    omega
  rw [hiff, nearest_le_iff_middle hd (Nat.sub_lt hpos Nat.one_pos), middle_last, not_or, not_lt,
    and_iff_left (fun h => hodd h.2)]

end Middles

/-! ## The nearest float -/

/-- The finite float `x` is nearest to `q`: no finite float has a value closer to `q`, and if one of another value is as
close, the code of `x` is even. -/
structure IsNearest (q : ℚ) (x : Float) : Prop where
  finite : x.isFinite = true
  closest : ∀ y : Float, y.isFinite = true → |value x - q| ≤ |value y - q|
  even : ∀ y : Float, y.isFinite = true → value y ≠ value x → |value y - q| = |value x - q| → code x % 2 = 0

section Distances

/-- Of two numbers the smaller one is at least as close to whatever is not above their middle. -/
theorem abs_sub_le_abs_sub_iff_middle (h : u < v) : |u - q| ≤ |v - q| ↔ q ≤ (u + v) / 2 := by
  rw [← sq_le_sq]
  constructor
  · intro hle
    nlinarith only [h, hle]
  · intro hle
    nlinarith only [h, hle]

theorem abs_sub_eq_abs_sub_iff_middle (h : u < v) : |v - q| = |u - q| ↔ q = (u + v) / 2 := by
  rw [abs_eq_abs]
  constructor
  · rintro (heq | heq)
    · linarith
    · linarith
  · intro heq
    exact Or.inr (by linarith)

theorem abs_sub_le_abs_sub_iff_middle' (h : u < v) : |v - q| ≤ |u - q| ↔ (u + v) / 2 ≤ q := by
  rw [← sq_le_sq]
  constructor
  · intro hle
    nlinarith only [h, hle]
  · intro hle
    nlinarith only [h, hle]

theorem middle_le (h : c < c') : middle c ≤ (magnitude c + magnitude c') / 2 := by
  have hle : magnitude (c + 1) ≤ magnitude c' := strictMono_magnitude.monotone h
  rw [middle]
  linarith

theorem le_middle (h : c' ≤ b) : (magnitude c' + magnitude (b + 1)) / 2 ≤ middle b := by
  have hle : magnitude c' ≤ magnitude b := strictMono_magnitude.monotone h
  rw [middle]
  linarith

end Distances

section Codes

/-- The code to which a quotient is rounded is nearest to it, and of two it is the even one. -/
theorem closest_nearest (hd : 0 < den) (hc : nearest num den = c) (hlt : c < infinity) (c' : ℕ) :
    |magnitude c - num / den| ≤ |magnitude c' - num / den| ∧
      (c' ≠ c → |magnitude c' - num / den| = |magnitude c - num / den| → c % 2 = 0) := by
  have hup := (nearest_le_iff_middle hd hlt).mp hc.le
  have hdown : ∀ b, c = b + 1 → ¬((num / den : ℚ) < middle b ∨ ((num / den : ℚ) = middle b ∧ b % 2 = 0)) := by
    intro b hb
    rw [← nearest_le_iff_middle hd (by omega)]
    omega
  generalize (num / den : ℚ) = q at hup hdown ⊢
  rcases Nat.lt_trichotomy c c' with hgt | rfl | hlt'
  · have hmid := middle_le hgt
    have hmag := strictMono_magnitude hgt
    rw [abs_sub_le_abs_sub_iff_middle hmag, abs_sub_eq_abs_sub_iff_middle hmag]
    rcases hup with hq | ⟨hq, heven⟩
    · exact ⟨(hq.trans_le hmid).le, fun _ heq => absurd (hq.trans_le hmid) heq.not_lt⟩
    · exact ⟨hq.le.trans hmid, fun _ _ => heven⟩
  · exact ⟨le_rfl, fun hne => absurd rfl hne⟩
  · obtain ⟨b, rfl⟩ := Nat.exists_eq_succ_of_ne_zero (Nat.ne_zero_of_lt hlt')
    obtain ⟨hge, hodd⟩ := not_or.mp (hdown b rfl)
    have hmid := le_middle (Nat.le_of_lt_succ hlt')
    have hmag := strictMono_magnitude hlt'
    rw [abs_sub_le_abs_sub_iff_middle' hmag, eq_comm, abs_sub_eq_abs_sub_iff_middle hmag]
    refine ⟨hmid.trans (not_lt.mp hge), fun _ heq => ?_⟩
    have hq : q = middle b := le_antisymm (heq.le.trans hmid) (not_lt.mp hge)
    have hb : ¬b % 2 = 0 := fun heven => hodd ⟨hq, heven⟩
    omega

/-- A quotient is rounded to a finite code that is nearest to it among the finite codes. -/
theorem nearest_eq_of_closest (hd : 0 < den) (hlt : c < infinity) (hup : c + 1 < infinity ∨ (num / den : ℚ) < bound)
    (hclosest : ∀ c' < infinity, |magnitude c - num / den| ≤ |magnitude c' - num / den|)
    (heven : ∀ c' < infinity, c' ≠ c → |magnitude c' - num / den| = |magnitude c - num / den| → c % 2 = 0) :
    nearest num den = c := by
  apply le_antisymm
  · rw [nearest_le_iff_middle hd hlt]
    by_cases hnext : c + 1 < infinity
    · have hmag := strictMono_magnitude (Nat.lt_succ_self c)
      have hle := (abs_sub_le_abs_sub_iff_middle hmag).mp (hclosest (c + 1) hnext)
      refine hle.lt_or_eq.imp_right fun hq => ⟨hq, heven (c + 1) hnext (Nat.succ_ne_self c) ?_⟩
      exact (abs_sub_eq_abs_sub_iff_middle hmag).mpr hq
    · -- behind the last finite code there is only the bound
      have hlast : c = infinity - 1 := by omega
      rw [hlast, middle_last]
      exact Or.inl (hup.resolve_left hnext)
  · by_contra hlt'
    obtain ⟨b, rfl⟩ := Nat.exists_eq_succ_of_ne_zero (Nat.ne_zero_of_lt (Nat.lt_of_not_le hlt'))
    have hb : b < infinity := by omega
    have hmag := strictMono_magnitude (Nat.lt_succ_self b)
    have hge := (abs_sub_le_abs_sub_iff_middle' hmag).mp (hclosest b hb)
    have hround : nearest num den ≤ b := by omega
    rcases (nearest_le_iff_middle hd hb).mp hround with hq | ⟨hq, hparity⟩
    · exact absurd hge hq.not_ge
    · have hsame := (abs_sub_eq_abs_sub_iff_middle hmag).mpr hq
      have hodd := heven b hb (Nat.succ_ne_self b).symm hsame.symm
      omega

end Codes

/-! ## The nearest float to a quotient -/

section Floats

/-- For a number that is not negative, a value may as well lose its sign. -/
theorem abs_magnitude_sub_le (hq : 0 ≤ q) (y : Float) : |magnitude (code y) - q| ≤ |value y - q| := by
  have hle := abs_abs_sub_abs_le_abs_sub (value y) q
  rwa [abs_of_nonneg hq, ← magnitude_code] at hle

/-- A float that is as close to a number that is not negative as zero is not negative. -/
theorem value_eq_magnitude (h : |value x - q| ≤ q) : value x = magnitude (code x) := by
  rcases value_eq_or_neg x with ⟨-, hx⟩ | ⟨-, hx⟩
  · exact hx
  · have hmag := magnitude_nonneg (code x)
    rw [hx, abs_le] at h
    have hzero : magnitude (code x) = 0 := by linarith
    rw [hx, hzero, neg_zero]

/-- **Rounding gives the nearest float.** -/
theorem isNearest_nearest (hd : 0 < den) (hlt : (num / den : ℚ) < bound) :
    IsNearest (num / den) (ofCode false (nearest num den)) := by
  have hq : (0 : ℚ) ≤ num / den := div_nonneg (Nat.cast_nonneg _) (Nat.cast_nonneg _)
  have hc : nearest num den < infinity := by
    refine lt_of_le_of_ne (nearest_le_infinity num den) fun h => ?_
    exact absurd ((nearest_eq_infinity_iff hd).mp h) (not_le.mpr hlt)
  have hclosest := closest_nearest hd rfl hc
  generalize nearest num den = c at hc hclosest ⊢
  generalize (num / den : ℚ) = q at hq hclosest ⊢
  have hvalue := value_ofCode_false hc
  refine ⟨isFinite_ofCode hc, fun y _ => ?_, fun y _ hne heq => ?_⟩
  · rw [hvalue]
    exact (hclosest (code y)).1.trans (abs_magnitude_sub_le hq y)
  · rw [hvalue] at hne heq
    rw [code_ofCode hc.le]
    have hsame : |magnitude (code y) - q| = |magnitude c - q| :=
      le_antisymm (heq ▸ abs_magnitude_sub_le hq y) (hclosest (code y)).1
    refine (hclosest (code y)).2 (fun hcode => hne ?_) hsame
    rw [← hcode]
    refine value_eq_magnitude (q := q) ?_
    have hzero := (hclosest 0).1
    rwa [magnitude_zero, zero_sub, abs_neg, abs_of_nonneg hq, ← heq] at hzero

theorem IsNearest.value_eq (h : IsNearest q x) (hq : 0 ≤ q) : value x = magnitude (code x) := by
  have hpos : 0 < infinity := Nat.zero_lt_of_lt (isFinite_iff.mp h.finite)
  have hzero := h.closest (ofCode false 0) (isFinite_ofCode hpos)
  rw [value_ofCode_false hpos, magnitude_zero, zero_sub, abs_neg, abs_of_nonneg hq] at hzero
  exact value_eq_magnitude hzero

/-- **No other magnitude is nearest** to a quotient. -/
theorem IsNearest.nearest_eq (h : IsNearest (num / den) x) (hd : 0 < den)
    (hup : code x + 1 < infinity ∨ (num / den : ℚ) < bound) : nearest num den = code x := by
  have hq : (0 : ℚ) ≤ num / den := div_nonneg (Nat.cast_nonneg _) (Nat.cast_nonneg _)
  have hvalue := h.value_eq hq
  refine nearest_eq_of_closest hd (isFinite_iff.mp h.finite) hup (fun c' hc' => ?_) (fun c' hc' hne heq => ?_)
  · have hle := h.closest (ofCode false c') (isFinite_ofCode hc')
    rwa [hvalue, value_ofCode_false hc'] at hle
  · refine h.even (ofCode false c') (isFinite_ofCode hc') ?_ ?_
    · rw [hvalue, value_ofCode_false hc']
      exact strictMono_magnitude.injective.ne hne
    · rw [hvalue, value_ofCode_false hc', heq]

end Floats

/-! ## Signs -/

section Signs

/-- Which float is nearest depends on its value and its code only. -/
theorem IsNearest.congr (h : IsNearest q x) (hy : y.isFinite = true) (hvalue : value y = value x)
    (hcode : code y = code x) : IsNearest q y := by
  refine ⟨hy, fun z hz => ?_, fun z hz hne heq => ?_⟩
  · rw [hvalue]
    exact h.closest z hz
  · rw [hvalue] at hne heq
    rw [hcode]
    exact h.even z hz hne heq

/-- The float with the other sign. -/
def negated (x : Float) : Float := ofCode (!isNegative x) (code x)

theorem isFinite_negated (hx : x.isFinite = true) : (negated x).isFinite = true :=
  isFinite_ofCode (isFinite_iff.mp hx)

theorem code_negated (hx : x.isFinite = true) : code (negated x) = code x := code_ofCode (isFinite_iff.mp hx).le

theorem value_negated (hx : x.isFinite = true) : value (negated x) = -value x := by
  rw [negated, value_ofCode _ (isFinite_iff.mp hx)]
  rcases value_eq_or_neg x with ⟨hsign, hvalue⟩ | ⟨hsign, hvalue⟩ <;> simp [hsign, hvalue]

/-- What is nearest to a number is, with the other sign, nearest to its negative. -/
theorem IsNearest.neg (h : IsNearest q x) : IsNearest (-q) (negated x) := by
  have hdist : ∀ y : Float, y.isFinite = true → |value (negated y) - q| = |value y - -q| := by
    intro y hy
    rw [value_negated hy, ← abs_neg, neg_sub, sub_neg_eq_add, sub_neg_eq_add, add_comm]
  have hx : |value (negated x) - -q| = |value x - q| := by
    rw [value_negated h.finite, ← abs_neg, neg_sub, sub_neg_eq_add, neg_add_eq_sub]
  refine ⟨isFinite_negated h.finite, fun y hy => ?_, fun y hy hne heq => ?_⟩
  · rw [hx, ← hdist y hy]
    exact h.closest _ (isFinite_negated hy)
  · rw [code_negated h.finite]
    refine h.even (negated y) (isFinite_negated hy) ?_ ?_
    · rw [value_negated hy]
      intro hsame
      refine hne ?_
      rw [value_negated h.finite, ← hsame, neg_neg]
    · rw [hdist y hy, heq, hx]

/-- What is nearest to a number has a magnitude that is nearest to the absolute value, and just as close. -/
theorem IsNearest.abs (h : IsNearest q x) :
    IsNearest |q| (ofCode false (code x)) ∧ |(|q| - magnitude (code x))| = |q - value x| := by
  have hc := isFinite_iff.mp h.finite
  have hvalue : value (ofCode false (code x)) = magnitude (code x) := value_ofCode_false hc
  have hcode : code (ofCode false (code x)) = code x := code_ofCode hc.le
  rcases le_total 0 q with hq | hq
  · have hx : value x = magnitude (code x) := h.value_eq hq
    rw [abs_of_nonneg hq, ← hx]
    exact ⟨h.congr (isFinite_ofCode hc) (hvalue.trans hx.symm) hcode, rfl⟩
  · have hx := h.neg.value_eq (neg_nonneg.mpr hq)
    rw [code_negated h.finite] at hx
    rw [abs_of_nonpos hq, ← hx, value_negated h.finite, neg_sub_neg, abs_sub_comm]
    refine ⟨h.neg.congr (isFinite_ofCode hc) (hvalue.trans hx.symm) ?_, rfl⟩
    rw [hcode, code_negated h.finite]

end Signs

end Binary64

namespace Decimal

open Binary64

variable {d d' : Decimal} {x : Float} {c : ℕ}

/-! ## Decimals -/

/-- The number that a decimal stands for. -/
def rational (d : Decimal) : ℚ := d.coefficient * 10 ^ d.exponent

theorem rational_nonneg (d : Decimal) : 0 ≤ d.rational :=
  mul_nonneg (Nat.cast_nonneg _) (zpow_nonneg (by norm_num) _)

/-- A decimal as a quotient. -/
theorem rational_eq (d : Decimal) :
    d.rational = ((d.coefficient * 10 ^ d.exponent.toNat : ℕ) : ℚ) / ((10 ^ (-d.exponent).toNat : ℕ) : ℚ) := by
  obtain ⟨c, e⟩ := d
  cases e with
  | ofNat n => simp [rational]
  | negSucc n => simp [rational, zpow_negSucc, div_eq_mul_inv]

theorem ten_pow_pos (n : ℕ) : 0 < 10 ^ n := Nat.pow_pos (by decide)

theorem nearestCode_mono (h : d.rational ≤ d'.rational) : d.nearestCode ≤ d'.nearestCode := by
  rw [nearestCode_eq, nearestCode_eq]
  rw [rational_eq, rational_eq] at h
  exact nearest_mono (ten_pow_pos _) (ten_pow_pos _) h

theorem nearestCode_eq_infinity_iff : d.nearestCode = infinity ↔ bound ≤ d.rational := by
  rw [nearestCode_eq, nearest_eq_infinity_iff (ten_pow_pos _), rational_eq]

theorem rational_le_middle (hc : c < infinity) (h : d.nearestCode ≤ c) : d.rational ≤ middle c := by
  rw [nearestCode_eq, nearest_le_iff_middle (ten_pow_pos _) hc, ← rational_eq] at h
  exact h.elim le_of_lt fun h => h.1.le

theorem middle_le_rational (h : c < d.nearestCode) : middle c ≤ d.rational := by
  have hc : c < infinity := by
    rw [nearestCode_eq] at h
    exact h.trans_le (nearest_le_infinity _ _)
  rw [← not_le, nearestCode_eq, nearest_le_iff_middle (ten_pow_pos _) hc, ← rational_eq, not_or, not_lt] at h
  exact h.1

/-- A decimal is rounded to the float nearest to it. -/
theorem isNearest_nearestCode (h : d.rational < bound) : IsNearest d.rational (ofCode false d.nearestCode) := by
  rw [nearestCode_eq]
  rw [rational_eq] at h ⊢
  exact isNearest_nearest (ten_pow_pos _) h

theorem nearestCode_eq_code (h : IsNearest d.rational x) (hup : code x + 1 < infinity ∨ d.rational < bound) :
    d.nearestCode = code x := by
  rw [nearestCode_eq]
  rw [rational_eq] at h hup
  exact h.nearest_eq (ten_pow_pos _) hup

end Decimal

end DeskCalc
