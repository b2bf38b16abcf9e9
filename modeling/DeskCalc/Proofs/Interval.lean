import DeskCalc.Proofs.Rounding
import Mathlib.Order.Monotone.Basic
import Mathlib.Tactic.Ring

/-!
# DeskCalc.Proofs.Interval — which quotients round to which code

* A code is a scale and a number of 53 bits, and the next code is the next number (`exists_scaled`, `units_scaled`,
  `units_scaled_succ`); so greater codes have greater values (`strictMono_units`).
* `AtMost n den c`: the quotient `n / den` lies below the middle between the code `c` and the next one, or in the middle
  if `c` is even.
* `nearest_le_iff`: a quotient is rounded to at most `c` exactly if it is at most `c` in this sense, across the powers
  of two and at both ends of the format.
-/

namespace DeskCalc.Binary64

variable {num den n c c' r scale : ℕ}

/-! ## Neighbouring codes -/

section Neighbours

theorem units_scaled (hr : r ≤ 2 ^ 53) (h : scale = 0 ∨ 2 ^ 52 ≤ r) : units (scale * 2 ^ 52 + r) = r * 2 ^ scale := by
  rcases Nat.lt_or_ge (scale * 2 ^ 52 + r) (2 ^ 52) with hlt | hge
  · obtain rfl : scale = 0 := by omega
    rw [units_of_lt hlt]
    omega
  · rw [units_of_le hge]
    rcases Nat.lt_or_eq_of_le hr with hlt | rfl
    · have hdiv : (scale * 2 ^ 52 + r) / 2 ^ 52 - 1 = scale := by omega
      have hmod : 2 ^ 52 + (scale * 2 ^ 52 + r) % 2 ^ 52 = r := by omega
      rw [hdiv, hmod]
    · -- the number has one bit more, so the scale of the code is one more
      have hdiv : (scale * 2 ^ 52 + 2 ^ 53) / 2 ^ 52 - 1 = scale + 1 := by omega
      have hmod : (scale * 2 ^ 52 + 2 ^ 53) % 2 ^ 52 = 0 := by omega
      rw [hdiv, hmod, Nat.pow_succ]
      omega

/-- Every code is a scale and a number of 53 bits. -/
theorem exists_scaled (c : ℕ) : ∃ scale r, c = scale * 2 ^ 52 + r ∧ r < 2 ^ 53 ∧ (scale = 0 ∨ 2 ^ 52 ≤ r) := by
  rcases Nat.lt_or_ge c (2 ^ 52) with hlt | hge
  · exact ⟨0, c, by omega, by omega, Or.inl rfl⟩
  · exact ⟨c / 2 ^ 52 - 1, 2 ^ 52 + c % 2 ^ 52, by omega, by omega, Or.inr (by omega)⟩

theorem units_scaled_succ (hr : r < 2 ^ 53) (h : scale = 0 ∨ 2 ^ 52 ≤ r) :
    units (scale * 2 ^ 52 + r + 1) = (r + 1) * 2 ^ scale := by
  rw [Nat.add_assoc]
  exact units_scaled (by omega) (by omega)

/-- Greater codes have greater values. -/
theorem strictMono_units : StrictMono units := by
  refine strictMono_nat_of_lt_succ fun c => ?_
  obtain ⟨scale, r, rfl, hr, h⟩ := exists_scaled c
  rw [units_scaled_succ hr h, units_scaled hr.le h]
  exact Nat.mul_lt_mul_of_pos_right (Nat.lt_succ_self r) (Nat.two_pow_pos scale)

/-- The values of the codes lie no closer together further up. -/
theorem units_add_units_le (c : ℕ) : units (c + 1) + units (c + 1) ≤ units c + units (c + 2) := by
  obtain ⟨scale, r, rfl, hr, h⟩ := exists_scaled c
  have hnext : units (scale * 2 ^ 52 + r + 1) = (r + 1) * 2 ^ scale := units_scaled_succ hr h
  have hafter : (r + 2) * 2 ^ scale ≤ units (scale * 2 ^ 52 + r + 2) := by
    rcases Nat.lt_or_eq_of_le (Nat.succ_le_of_lt hr) with hlt | heq
    · have hcode : scale * 2 ^ 52 + r + 2 = scale * 2 ^ 52 + (r + 1) + 1 := by omega
      rw [hcode, units_scaled_succ hlt (by omega)]
    · -- the code after the next one belongs to the next scale
      have hcode : scale * 2 ^ 52 + r + 2 = (scale + 1) * 2 ^ 52 + (2 ^ 52 + 1) := by omega
      have hunits : units ((scale + 1) * 2 ^ 52 + (2 ^ 52 + 1)) = (2 ^ 52 + 1) * 2 ^ (scale + 1) :=
        units_scaled (by omega) (Or.inr (by omega))
      have hpow : 2 ^ (scale + 1) = 2 ^ scale * 2 := Nat.pow_succ 2 scale
      rw [hcode, hunits, hpow]
      generalize 2 ^ scale = p
      have hr2 : r + 2 ≤ 2 * (2 ^ 52 + 1) := by omega
      calc (r + 2) * p ≤ 2 * (2 ^ 52 + 1) * p := Nat.mul_le_mul_right p hr2
        _ = (2 ^ 52 + 1) * (p * 2) := by omega
  rw [hnext, units_scaled hr.le h]
  refine le_trans (le_of_eq ?_) (Nat.add_le_add_left hafter _)
  ring

/-- Only the first few values lie far apart for their size. -/
theorem lt_ten_of_mul_units_le (h : 21 * units c ≤ 19 * units (c + 1)) : c < 10 := by
  obtain ⟨scale, r, rfl, hr, hscale⟩ := exists_scaled c
  rw [units_scaled_succ hr hscale, units_scaled hr.le hscale, ← Nat.mul_assoc, ← Nat.mul_assoc] at h
  have hle : 21 * r ≤ 19 * (r + 1) := Nat.le_of_mul_le_mul_right h (Nat.two_pow_pos scale)
  omega

end Neighbours

/-! ## Rounding to a natural number -/

section HalfEven

/-- A quotient is rounded to at most `r` if it is below the middle between `r` and the next number, or in the middle and
`r` is even. -/
theorem roundHalfEven_le_iff (hd : 0 < den) :
    roundHalfEven num den ≤ r ↔ 2 * num < (2 * r + 1) * den ∨ (2 * num = (2 * r + 1) * den ∧ r % 2 = 0) := by
  have hnum : num = den * (num / den) + num % den := (Nat.div_add_mod num den).symm
  have hrest : num % den < den := Nat.mod_lt num hd
  have hmid : (2 * r + 1) * den = 2 * (den * r) + den := by ring
  rw [hmid, roundHalfEven]
  generalize num / den = q at hnum ⊢
  generalize num % den = rest at hnum hrest ⊢
  rcases Nat.lt_trichotomy r q with hlt | rfl | hgt
  · have hle : den * r + den ≤ den * q := by
      rw [← Nat.mul_succ]
      exact Nat.mul_le_mul_left den hlt
    split_ifs <;> omega
  · split_ifs <;> omega
  · have hle : den * q + den ≤ den * r := by
      rw [← Nat.mul_succ]
      exact Nat.mul_le_mul_left den hgt
    split_ifs <;> omega

end HalfEven

/-! ## Rounding to a code -/

section Codes

/-- The quotient `n / den`, in units, lies below the middle between a code and the next one, or in the middle if the code
is even. -/
def AtMost (n den c : ℕ) : Prop :=
  2 * n < (units c + units (c + 1)) * den ∨ (2 * n = (units c + units (c + 1)) * den ∧ c % 2 = 0)

theorem AtMost.mono (hd : 0 < den) (hle : c ≤ c') (h : AtMost n den c) : AtMost n den c' := by
  rcases Nat.lt_or_eq_of_le hle with hlt | rfl
  · have hsum : units c + units (c + 1) < units c' + units (c' + 1) :=
      Nat.add_lt_add (strictMono_units hlt) (strictMono_units (Nat.succ_lt_succ hlt))
    have hmul := Nat.mul_lt_mul_of_pos_right hsum hd
    rcases h with h | ⟨h, -⟩
    · exact Or.inl (h.trans hmul)
    · exact Or.inl (h.trans_lt hmul)
  · exact h

/-- The quotient `n / den` lies among the values of a scale, from `2 ^ 52` to `2 ^ 53` steps of it; the least scale goes
down to zero. -/
structure InScale (n den scale : ℕ) : Prop where
  top : n < 2 ^ 53 * 2 ^ scale * den
  low : scale = 0 ∨ 2 ^ 52 * 2 ^ scale * den ≤ n

theorem inScale_log2 (hd : 0 < den) : InScale n den ((n / den).log2 - 52) := by
  generalize hq : n / den = q
  constructor
  · rw [← Nat.div_lt_iff_lt_mul hd, hq, ← Nat.pow_add]
    exact Nat.lt_log2_self.trans_le (Nat.pow_le_pow_right Nat.two_pos (by omega))
  · rcases Nat.lt_or_ge 52 q.log2 with hlt | hle
    · right
      have hq0 : q ≠ 0 := by
        rintro rfl
        simp at hlt
      rw [← Nat.le_div_iff_mul_le hd, hq, ← Nat.pow_add, Nat.add_sub_cancel' hlt.le]
      exact Nat.log2_self_le hq0
    · left
      omega

section Scale

variable (hd : 0 < den) (h : InScale n den scale)
include hd h

/-- Rounding does not leave the scale, but it may reach its end. -/
theorem InScale.round_le : roundHalfEven n (den * 2 ^ scale) ≤ 2 ^ 53 := by
  refine (roundHalfEven_le_iff (Nat.mul_pos hd (Nat.two_pow_pos scale))).mpr (Or.inl ?_)
  have hmul : (2 * 2 ^ 53 + 1) * (den * 2 ^ scale) = 2 * (2 ^ 53 * 2 ^ scale * den) + den * 2 ^ scale := by ring
  have htop := h.top
  omega

theorem InScale.le_round : scale = 0 ∨ 2 ^ 52 ≤ roundHalfEven n (den * 2 ^ scale) := by
  refine h.low.imp_right fun hlow => le_trans ?_ div_le_roundHalfEven
  rw [Nat.le_div_iff_mul_le (Nat.mul_pos hd (Nat.two_pow_pos scale)), Nat.mul_comm den, ← Nat.mul_assoc]
  exact hlow

/-- A quotient is at most the code to which its scale rounds it. -/
theorem InScale.atMost_round : AtMost n den (scale * 2 ^ 52 + roundHalfEven n (den * 2 ^ scale)) := by
  have hround := (roundHalfEven_le_iff (Nat.mul_pos hd (Nat.two_pow_pos scale))).mp
    (le_refl (roundHalfEven n (den * 2 ^ scale)))
  have hle := h.round_le hd
  have hge := h.le_round hd
  generalize roundHalfEven n (den * 2 ^ scale) = r at hround hle hge ⊢
  have hunits : units (scale * 2 ^ 52 + r) = r * 2 ^ scale := units_scaled hle hge
  rcases Nat.lt_or_eq_of_le hle with hlt | rfl
  · have hsum : (r * 2 ^ scale + (r + 1) * 2 ^ scale) * den = (2 * r + 1) * (den * 2 ^ scale) := by ring
    rw [AtMost, hunits, units_scaled_succ hlt hge, hsum]
    exact hround.imp_right fun ⟨heq, heven⟩ => ⟨heq, by omega⟩
  · -- at the end of the scale the code itself is above the quotient
    have hnext : units (scale * 2 ^ 52 + 2 ^ 53) < units (scale * 2 ^ 52 + 2 ^ 53 + 1) :=
      strictMono_units (Nat.lt_succ_self _)
    left
    calc 2 * n < 2 * (2 ^ 53 * 2 ^ scale * den) := Nat.mul_lt_mul_of_pos_left h.top Nat.two_pos
      _ = (units (scale * 2 ^ 52 + 2 ^ 53) + units (scale * 2 ^ 52 + 2 ^ 53)) * den := by
        rw [hunits]
        ring
      _ ≤ _ := Nat.mul_le_mul_right den (by omega)

/-- It is not at most the code before. -/
theorem InScale.not_atMost_of_round (hc : scale * 2 ^ 52 + roundHalfEven n (den * 2 ^ scale) = c + 1) :
    ¬AtMost n den c := by
  have hround : ∀ r, roundHalfEven n (den * 2 ^ scale) ≤ r ↔ _ := fun r =>
    roundHalfEven_le_iff (Nat.mul_pos hd (Nat.two_pow_pos scale))
  have hle := h.round_le hd
  have hge := h.le_round hd
  generalize roundHalfEven n (den * 2 ^ scale) = r at hround hle hge hc
  have hunits : units (c + 1) = r * 2 ^ scale := by
    rw [← hc]
    exact units_scaled hle hge
  by_cases hfirst : scale = 0 ∨ 2 ^ 52 < r
  · -- the code before belongs to the same scale
    obtain ⟨p, rfl⟩ : ∃ p, r = p + 1 := ⟨r - 1, by omega⟩
    obtain rfl : c = scale * 2 ^ 52 + p := by omega
    have hbefore : units (scale * 2 ^ 52 + p) = p * 2 ^ scale := units_scaled (by omega) (by omega)
    have hsum : (p * 2 ^ scale + (p + 1) * 2 ^ scale) * den = (2 * p + 1) * (den * 2 ^ scale) := by ring
    have hp : ¬p + 1 ≤ p := Nat.not_succ_le_self p
    rw [hround p] at hp
    rw [AtMost, hbefore, hunits, hsum]
    exact fun hmost => hp (hmost.imp_right fun ⟨heq, heven⟩ => ⟨heq, by omega⟩)
  · -- the first code of a scale is not above the quotient
    obtain ⟨hscale, hr⟩ := not_or.mp hfirst
    obtain rfl : r = 2 ^ 52 := by omega
    have hlow : units (c + 1) * den ≤ n := hunits ▸ h.low.resolve_left hscale
    have hbefore : (units c + units (c + 1)) * den < 2 * (units (c + 1) * den) := by
      rw [← Nat.mul_assoc]
      refine Nat.mul_lt_mul_of_pos_right ?_ hd
      have hlt : units c < units (c + 1) := strictMono_units (Nat.lt_succ_self c)
      omega
    rw [AtMost]
    omega

end Scale

/-- **Rounding to at most a code**: a quotient is rounded to a finite code or to one before it exactly if it is below the
middle between the code and the next one, or in the middle and the code is even. -/
theorem nearest_le_iff (hd : 0 < den) (hc : c < infinity) :
    nearest num den ≤ c ↔ AtMost (num * unitsPerOne) den c := by
  have hscale : InScale (num * unitsPerOne) den ((num * unitsPerOne / den).log2 - 52) := inScale_log2 hd
  rw [nearest_eq, min_le_iff, or_iff_left (Nat.not_le.mpr hc)]
  constructor
  · intro hle
    exact (hscale.atMost_round hd).mono hd hle
  · intro hmost
    by_contra hlt
    obtain ⟨p, hp⟩ := Nat.exists_eq_succ_of_ne_zero (Nat.ne_zero_of_lt (Nat.lt_of_not_le hlt))
    refine hscale.not_atMost_of_round hd hp (hmost.mono hd ?_)
    omega

theorem nearest_le_infinity (num den : ℕ) : nearest num den ≤ infinity := by
  rw [nearest_eq]
  exact Nat.min_le_right _ _

end Codes

end DeskCalc.Binary64
