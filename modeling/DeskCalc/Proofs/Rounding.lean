import DeskCalc.Decimal.Shortest
import Mathlib.Algebra.Order.Ring.Nat
import Mathlib.Tactic.SplitIfs

/-!
# DeskCalc.Proofs.Rounding — values of the format round to themselves

* Rounding depends on the quotient only (`nearest_mul_right`).
* `nearest_of_units`: a quotient that is the value of a code rounds to that code.
* `nearest_eq_infinity`, `nearest_eq_zero`: quotients far beyond either end of the format.
* `nearestCode_eq`: so the early answers to decimals far beyond the format are those of `nearest`, and every decimal is
  rounded as the quotient it stands for.
-/

namespace DeskCalc

namespace Binary64

open Decimal (allPlaces)

variable {num den k c : ℕ}

/-! ## Powers -/

theorem infinity_eq : infinity = 2047 * 2 ^ 52 := by
  simp only [infinity, Nat.pow_eq]

theorem allPlaces_eq : allPlaces = 1074 := rfl

-- the exponent stays folded: as a numeral it invites the power to be evaluated
theorem unitsPerOne_eq : unitsPerOne = 2 ^ allPlaces := by
  unfold unitsPerOne
  rw [← allPlaces_eq, Nat.pow_eq]

theorem unitsPerOne_pos : 0 < unitsPerOne := by
  rw [unitsPerOne_eq]
  exact Nat.two_pow_pos allPlaces

theorem units_of_lt (h : c < 2 ^ 52) : units c = c := by
  simp only [units, Nat.pow_eq, h, if_true]

/-- Above the subnormal codes, a value is an integer of 53 bits times a power of two. -/
theorem units_of_le (h : 2 ^ 52 ≤ c) : units c = (2 ^ 52 + c % 2 ^ 52) * 2 ^ (c / 2 ^ 52 - 1) := by
  simp only [units, Nat.pow_eq, Nat.not_lt.mpr h, if_false]

theorem nearest_eq (num den : ℕ) :
    nearest num den = min (((num * unitsPerOne / den).log2 - 52) * 2 ^ 52 +
      roundHalfEven (num * unitsPerOne) (den * 2 ^ ((num * unitsPerOne / den).log2 - 52))) infinity := by
  simp only [nearest, Nat.pow_eq]

/-! ## Quotients -/

section Quotients

theorem roundHalfEven_mul_right (hk : 0 < k) : roundHalfEven (num * k) (den * k) = roundHalfEven num den := by
  have hlt : 2 * (num % den * k) < den * k ↔ 2 * (num % den) < den := by
    rw [← Nat.mul_assoc]
    exact Nat.mul_lt_mul_right hk
  have heq : 2 * (num % den * k) = den * k ↔ 2 * (num % den) = den := by
    rw [← Nat.mul_assoc]
    exact Nat.mul_left_inj hk.ne'
  simp only [roundHalfEven, Nat.mul_div_mul_right _ _ hk, Nat.mul_mod_mul_right, hlt, heq]

theorem roundHalfEven_mul_self (hd : 0 < den) : roundHalfEven (c * den) den = c := by
  simp [roundHalfEven, hd]

theorem div_le_roundHalfEven : num / den ≤ roundHalfEven num den := by
  unfold roundHalfEven
  dsimp only
  split_ifs <;> omega

/-- Rounding depends on the quotient only. -/
theorem nearest_mul_right (hk : 0 < k) : nearest (num * k) (den * k) = nearest num den := by
  have hnum : num * k * unitsPerOne = num * unitsPerOne * k := Nat.mul_right_comm ..
  have hden : ∀ n, den * k * n = den * n * k := fun n => Nat.mul_right_comm ..
  simp only [nearest_eq, hnum, hden, Nat.mul_div_mul_right _ _ hk, roundHalfEven_mul_right hk]

end Quotients

/-! ## Values of codes -/

section Values

theorem code_split (h : 2 ^ 52 ≤ c) : (c / 2 ^ 52 - 1) * 2 ^ 52 + (2 ^ 52 + c % 2 ^ 52) = c := by
  omega

theorem log2_mul_two_pow {m : ℕ} (hm : m ≠ 0) (n : ℕ) : (m * 2 ^ n).log2 = m.log2 + n := by
  refine (Nat.log2_eq_iff (Nat.mul_ne_zero hm (Nat.two_pow_pos n).ne')).mpr ⟨?_, ?_⟩
  · rw [Nat.pow_add]
    exact Nat.mul_le_mul_right _ (Nat.log2_self_le hm)
  · rw [Nat.add_right_comm, Nat.pow_add]
    exact Nat.mul_lt_mul_of_pos_right Nat.lt_log2_self (Nat.two_pow_pos n)

/-- A mantissa of 53 bits. -/
theorem log2_eq_of_bounds {m : ℕ} (hlo : 2 ^ 52 ≤ m) (hhi : m < 2 ^ 53) : m.log2 = 52 :=
  (Nat.log2_eq_iff (hlo.trans_lt' (Nat.two_pow_pos 52)).ne').mpr ⟨hlo, hhi⟩

/-- **Values round to themselves.** -/
theorem nearest_of_units (hc : c ≤ infinity) (hd : 0 < den) (h : num * unitsPerOne = units c * den) :
    nearest num den = c := by
  have hround : ∀ n, roundHalfEven (n * den) den = n := fun n => roundHalfEven_mul_self hd
  rw [nearest_eq, h, Nat.mul_div_cancel _ hd]
  rcases Nat.lt_or_ge c (2 ^ 52) with hlt | hge
  · -- a subnormal code is its own value
    have hscale : c.log2 - 52 = 0 := by
      by_cases h0 : c = 0
      · rw [h0, Nat.log2_zero]
      · have hlog : c.log2 < 52 := (Nat.log2_lt h0).mpr hlt
        omega
    rw [units_of_lt hlt, hscale]
    simpa [hround] using hc
  · -- above them the exponent is the scale
    have hmod : c % 2 ^ 52 < 2 ^ 52 := Nat.mod_lt _ (Nat.two_pow_pos 52)
    have hdiv : 1 ≤ c / 2 ^ 52 := (Nat.one_le_div_iff (Nat.two_pow_pos 52)).mpr hge
    have hlog : (2 ^ 52 + c % 2 ^ 52).log2 = 52 := log2_eq_of_bounds (Nat.le_add_right ..) (by omega)
    have hscale : (units c).log2 - 52 = c / 2 ^ 52 - 1 := by
      rw [units_of_le hge, log2_mul_two_pow (by omega), hlog, Nat.add_sub_cancel_left]
    have hmul : units c * den = (2 ^ 52 + c % 2 ^ 52) * (den * 2 ^ (c / 2 ^ 52 - 1)) := by
      rw [units_of_le hge]
      ac_rfl
    rw [hscale, hmul, roundHalfEven_mul_self (Nat.mul_pos hd (Nat.two_pow_pos _)), code_split hge]
    exact Nat.min_eq_left hc

end Values

/-! ## Beyond the format -/

section Beyond

/-- From `2 ^ 1024` on everything rounds to infinity. -/
theorem nearest_eq_infinity (hk : 1024 ≤ k) (hd : 0 < den) (h : 2 ^ k * den ≤ num) : nearest num den = infinity := by
  have hq : 2 ^ (k + allPlaces) ≤ num * unitsPerOne / den := by
    rw [Nat.le_div_iff_mul_le hd, Nat.pow_add, ← unitsPerOne_eq, Nat.mul_right_comm]
    exact Nat.mul_le_mul_right _ h
  rw [nearest_eq]
  generalize hqe : num * unitsPerOne / den = q at hq ⊢
  have hq0 : q ≠ 0 := (hq.trans_lt' (Nat.two_pow_pos _)).ne'
  have hlog : k + allPlaces ≤ q.log2 := (Nat.le_log2 hq0).mpr hq
  have hplaces := allPlaces_eq
  have hself : 2 ^ (52 + (q.log2 - 52)) ≤ q := by
    rw [Nat.add_sub_cancel' (by omega)]
    exact Nat.log2_self_le hq0
  have hround : 2 ^ 52 ≤ roundHalfEven (num * unitsPerOne) (den * 2 ^ (q.log2 - 52)) := by
    refine le_trans ?_ div_le_roundHalfEven
    rw [← Nat.div_div_eq_div_mul, hqe, Nat.le_div_iff_mul_le (Nat.two_pow_pos _), ← Nat.pow_add]
    exact hself
  have hscale : 2046 ≤ q.log2 - 52 := by omega
  refine Nat.min_eq_right ?_
  calc infinity = 2046 * 2 ^ 52 + 2 ^ 52 := infinity_eq
    _ ≤ _ := Nat.add_le_add (Nat.mul_le_mul_right _ hscale) hround

/-- Below half of the least positive value everything rounds to zero. -/
theorem nearest_eq_zero (h : 2 * (num * unitsPerOne) < den) : nearest num den = 0 := by
  have hlt : num * unitsPerOne < den := by omega
  have hround : roundHalfEven (num * unitsPerOne) (den * 2 ^ 0) = 0 := by
    rw [Nat.pow_zero, Nat.mul_one, roundHalfEven, Nat.div_eq_of_lt hlt, Nat.mod_eq_of_lt hlt]
    exact if_pos (Or.inl h)
  rw [nearest_eq, Nat.div_eq_of_lt hlt, Nat.log2_zero, Nat.zero_sub, hround, Nat.zero_mul, Nat.zero_add, Nat.zero_min]

end Beyond

end Binary64

namespace Decimal

open Binary64

theorem two_pow_three_mul_le (n : ℕ) : 2 ^ (3 * n) ≤ 10 ^ n := by
  rw [Nat.pow_mul]
  exact Nat.pow_le_pow_left (by decide) n

/-- **Decimals**: every decimal is rounded as the quotient it stands for. -/
theorem nearestCode_eq (d : Decimal) :
    d.nearestCode = nearest (d.coefficient * 10 ^ d.exponent.toNat) (10 ^ (-d.exponent).toNat) := by
  obtain ⟨c, e⟩ := d
  by_cases h0 : c = 0
  · have hzero : 2 * (0 * unitsPerOne) < 10 ^ (-e).toNat := by simp
    simp [nearestCode, h0, nearest_eq_zero hzero]
  have hc : 2 ^ c.log2 ≤ c := Nat.log2_self_le h0
  rw [nearestCode, if_neg h0]
  cases e with
  | ofNat n =>
    simp only [Nat.pow_eq, Int.ofNat_eq_natCast, Int.toNat_natCast, Int.toNat_neg_natCast, Nat.pow_zero]
    split_ifs with h
    · refine (nearest_eq_infinity h Nat.one_pos ?_).symm
      rw [Nat.mul_one, Nat.pow_add]
      exact Nat.mul_le_mul hc (two_pow_three_mul_le n)
    · rfl
  | negSucc n =>
    simp only [Nat.pow_eq, Int.toNat_negSucc, Int.neg_negSucc, Int.toNat_natCast, Nat.pow_zero, Nat.mul_one]
    split_ifs with h
    · have hexp : c.log2 + 2 + allPlaces ≤ 3 * (n + 1) := by
        rw [allPlaces_eq]
        exact h
      refine (nearest_eq_zero ?_).symm
      calc 2 * (c * unitsPerOne) < 2 * (2 ^ (c.log2 + 1) * unitsPerOne) := by
            have hlt : c < 2 ^ (c.log2 + 1) := Nat.lt_log2_self
            exact Nat.mul_lt_mul_of_pos_left (Nat.mul_lt_mul_of_pos_right hlt unitsPerOne_pos) Nat.two_pos
        _ = 2 ^ (c.log2 + 2 + allPlaces) := by
            rw [unitsPerOne_eq, ← Nat.mul_assoc, ← Nat.pow_succ', ← Nat.pow_add]
        _ ≤ 2 ^ (3 * (n + 1)) := Nat.pow_le_pow_right Nat.two_pos hexp
        _ ≤ 10 ^ (n + 1) := two_pow_three_mul_le (n + 1)
    · rfl

end Decimal

end DeskCalc
