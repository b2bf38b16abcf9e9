import DeskCalc.Proofs.Finite
import DeskCalc.Proofs.Word

/-!
# DeskCalc.Proofs.Exact — operations whose value is in the format are exact

The model of floats computes an operation on signs, mantissas and exponents and rounds what comes out.

* `Canonical m e`: the format writes the magnitude `m * 2 ^ e` with just this mantissa and this exponent.
* Rounding finds the canonical form of a magnitude that has one, whatever mantissa and exponent it comes with
  (`roundWithAccuracy_eq`, `round_eq`, `normalize_same`).
* `onUnpacked_same`: so an operation on operands of the format whose exact value is in the format has that value, and
  only the sign of a zero is left open.
-/

namespace DeskCalc

open Float.Model (Format UnpackedFloat totalExponent)
open Float.Model.UnpackedFloat

namespace Binary64

variable {m M k : ℕ} {e E : ℤ} {s t : Sign}

/-! ## Mantissas and exponents -/

section Mantissas

theorem targetExponent_eq (t : ℤ) : Format.binary64.targetExponent t = max (t - 53) (-1074) := rfl

/-- The mantissa and the exponent with which the format writes a magnitude. -/
structure Canonical (m : ℕ) (e : ℤ) : Prop where
  pos : 0 < m
  exponent : Format.binary64.targetExponent (totalExponent m e) = e

theorem Canonical.exponent_eq (h : Canonical m e) : max ((m.log2 : ℤ) + e - 52) (-1074) = e := by
  have hexp := h.exponent
  rw [targetExponent_eq, totalExponent] at hexp
  omega

/-- A magnitude with two exponents has the mantissa of the smaller one shifted. -/
theorem eq_mul_two_pow (h : (m : ℚ) * 2 ^ e = M * 2 ^ E) (hle : e ≤ E) : m = M * 2 ^ (E - e).toNat := by
  have hE : E = e + ((E - e).toNat : ℤ) := by omega
  have hpow : (2 : ℚ) ^ e ≠ 0 := zpow_ne_zero e two_ne_zero
  have hcast : (m : ℚ) = ((M * 2 ^ (E - e).toNat : ℕ) : ℚ) := by
    refine mul_right_cancel₀ hpow ?_
    calc (m : ℚ) * 2 ^ e = M * 2 ^ (e + ((E - e).toNat : ℤ)) := by rw [h, ← hE]
      _ = _ := by
        rw [zpow_add₀ two_ne_zero, zpow_natCast]
        push_cast
        ring
  exact_mod_cast hcast

/-- Shifting a mantissa to a smaller exponent keeps the magnitude. -/
theorem shifted_value (hle : E ≤ e) : ((m <<< (e - E).toNat : ℕ) : ℚ) * 2 ^ E = m * 2 ^ e := by
  have he : e = ((e - E).toNat : ℤ) + E := by omega
  conv_rhs => rw [he, zpow_add₀ two_ne_zero, zpow_natCast]
  rw [Nat.shiftLeft_eq]
  push_cast
  ring

/-- The place of the first digit depends on the magnitude only. -/
theorem totalExponent_congr (hm : 0 < m) (hM : 0 < M) (h : (m : ℚ) * 2 ^ e = M * 2 ^ E) :
    totalExponent m e = totalExponent M E := by
  rcases le_total e E with hle | hle
  · have hlog := log2_mul_two_pow hM.ne' (E - e).toNat
    rw [← eq_mul_two_pow h hle] at hlog
    simp only [totalExponent]
    omega
  · have hlog := log2_mul_two_pow hm.ne' (e - E).toNat
    rw [← eq_mul_two_pow h.symm hle] at hlog
    simp only [totalExponent]
    omega

/-- A magnitude has one canonical form. -/
theorem Canonical.unique (h : Canonical m e) (H : Canonical M E) (heq : (m : ℚ) * 2 ^ e = M * 2 ^ E) :
    m = M ∧ e = E := by
  have hexp : e = E := by
    rw [← h.exponent, ← H.exponent, totalExponent_congr h.pos H.pos heq]
  subst hexp
  exact ⟨by simpa using eq_mul_two_pow heq le_rfl, rfl⟩

theorem le_log2_mul (hm : 0 < m) (hM : 0 < M) : m.log2 + M.log2 ≤ (m * M).log2 := by
  refine (Nat.le_log2 (Nat.mul_pos hm hM).ne').mpr ?_
  rw [Nat.pow_add]
  exact Nat.mul_le_mul (Nat.log2_self_le hm.ne') (Nat.log2_self_le hM.ne')

theorem log2_mul_le (hm : 0 < m) (hM : 0 < M) : (m * M).log2 ≤ m.log2 + M.log2 + 1 := by
  refine Nat.le_of_lt_succ ((Nat.log2_lt (Nat.mul_pos hm hM).ne').mpr ?_)
  have hpow : m.log2 + M.log2 + 1 + 1 = m.log2 + 1 + (M.log2 + 1) := by omega
  rw [Nat.succ_eq_add_one, hpow, Nat.pow_add]
  exact Nat.mul_lt_mul'' Nat.lt_log2_self Nat.lt_log2_self

/-- A quotient of two magnitudes, multiplied out. -/
theorem mul_of_div_eq {m₁ m₂ : ℕ} {e₁ e₂ : ℤ} (hm : 0 < m₂)
    (h : (m₁ : ℚ) * 2 ^ e₁ / (m₂ * 2 ^ e₂) = M * 2 ^ E) : (m₁ : ℚ) * 2 ^ (e₁ - e₂) = (m₂ * M : ℕ) * 2 ^ E := by
  have hpow : (2 : ℚ) ^ e₂ ≠ 0 := zpow_ne_zero e₂ two_ne_zero
  have hcast : (m₂ : ℚ) ≠ 0 := Nat.cast_ne_zero.mpr hm.ne'
  rw [div_eq_iff (mul_ne_zero hcast hpow)] at h
  rw [zpow_sub₀ two_ne_zero, ← mul_div_assoc, h, div_eq_iff hpow]
  push_cast
  ring

end Mantissas

/-! ## Rounding -/

section Rounding

/-- Zeros that are shifted out leave no residue. -/
theorem shiftRight_mul_two_pow : (⟨m * 2 ^ k, false, false⟩ : ExtendedMantissa) >>> k = ⟨m, false, false⟩ := by
  show k.repeat ExtendedMantissa.shiftRightOne _ = _
  induction k generalizing m with
  | zero => simp [Nat.repeat]
  | succ k ih =>
    have hsplit : m * 2 ^ (k + 1) = m * 2 * 2 ^ k := by ring
    rw [Nat.repeat, hsplit, ih]
    simp [ExtendedMantissa.shiftRightOne]

/-- Shifting to a greater exponent finds the mantissa there. -/
theorem shiftToExponent_eq (h : (m : ℚ) * 2 ^ e = M * 2 ^ E) (hle : e ≤ E) :
    shiftToExponent m e .exact E = (⟨M, false, false⟩, E) := by
  have hexp : e + ((E - e).toNat : ℤ) = E := by omega
  rw [shiftToExponent, eq_mul_two_pow h hle]
  exact Prod.ext shiftRight_mul_two_pow hexp

/-- A magnitude with a canonical form is rounded to it, if no digit is missing. -/
theorem roundWithAccuracy_eq (H : Canonical M E) (h : (m : ℚ) * 2 ^ e = M * 2 ^ E) (hm : 0 < m) (hle : e ≤ E) :
    roundWithAccuracy Format.binary64 s m e .exact = .finite s M E H.pos := by
  have htarget : Format.binary64.targetExponent (totalExponent m e) = E := by
    rw [totalExponent_congr hm H.pos h, H.exponent]
  have hfirst : shiftToTargetExponent Format.binary64 m e .exact = (⟨M, false, false⟩, E) := by
    rw [shiftToTargetExponent, htarget]
    exact shiftToExponent_eq h hle
  have hagain : shiftToTargetExponent Format.binary64 M E .exact = (⟨M, false, false⟩, E) := by
    rw [shiftToTargetExponent, H.exponent]
    exact shiftToExponent_eq rfl le_rfl
  have hround : (⟨M, false, false⟩ : ExtendedMantissa).roundedMantissa = M := rfl
  simp only [roundWithAccuracy, hfirst, hround, hagain, dif_neg H.pos.ne']

theorem decreaseExponent_eq (hle : E ≤ e) : decreaseExponent m e E = (m * 2 ^ (e - E).toNat, E) := by
  have hexp : e - ((e - E).toNat : ℤ) = E := by omega
  rw [decreaseExponent, Nat.shiftLeft_eq, hexp]

theorem round_eq (H : Canonical M E) (h : (m : ℚ) * 2 ^ e = M * 2 ^ E) (hm : 0 < m) :
    UnpackedFloat.round Format.binary64 s m e = .finite s M E H.pos := by
  have htarget : Format.binary64.targetExponent (totalExponent m e) = E := by
    rw [totalExponent_congr hm H.pos h, H.exponent]
  simp only [UnpackedFloat.round, htarget]
  rcases le_total e E with hle | hle
  · have hkeep : decreaseExponent m e E = (m, e) := by
      have hshift : (e - E).toNat = 0 := by omega
      simp [decreaseExponent, hshift]
    rw [hkeep]
    exact roundWithAccuracy_eq H h hm hle
  · rw [decreaseExponent_eq hle, ← eq_mul_two_pow h.symm hle]
    exact roundWithAccuracy_eq H rfl H.pos le_rfl

end Rounding

/-! ## Signed values -/

section Signed

variable {a : ℤ} {u v w : UnpackedFloat}

/-- The factor that a sign stands for. -/
def factor : Sign → ℚ
  | .negative => -1
  | .positive => 1

theorem cast_apply (s : Sign) (m : ℕ) : ((s.apply m : ℤ) : ℚ) = factor s * m := by
  cases s <;> simp [Sign.apply, factor]

theorem factor_neg (s : Sign) : factor (-s) = -factor s := by
  cases s with
  | negative => exact (neg_neg 1).symm
  | positive => rfl

theorem factor_mul (s t : Sign) : factor (s * t) = factor s * factor t := by
  cases s <;> cases t <;> simp [factor]

theorem factor_div (s t : Sign) : factor (s / t) = factor s / factor t := by
  cases s <;> cases t <;> simp [factor] <;> rfl

theorem factor_ne_zero (s : Sign) : factor s ≠ 0 := by
  cases s <;> simp [factor]

/-- A positive magnitude and its sign are those of the product. -/
theorem eq_of_factor_mul_eq {p q : ℚ} (hp : 0 < p) (hq : 0 < q) (h : factor s * p = factor t * q) :
    s = t ∧ p = q := by
  cases s <;> cases t <;> simp only [factor] at h
  · exact ⟨rfl, by linarith⟩
  · linarith
  · linarith
  · exact ⟨rfl, by linarith⟩

theorem magnitude_pos (hm : 0 < m) (e : ℤ) : (0 : ℚ) < m * 2 ^ e := by positivity

/-- The value of a finite float of the model. -/
def rational : UnpackedFloat → ℚ
  | .finite s m e _ => factor s * (m * 2 ^ e)
  | _ => 0

theorem rational_finite_ne_zero (hm : 0 < m) : rational (.finite s m e hm) ≠ 0 :=
  mul_ne_zero (factor_ne_zero s) (magnitude_pos hm e).ne'

/-- The finite floats of the model that are written as the format writes them. -/
inductive InFormat : UnpackedFloat → Prop where
  | zero (s : Sign) : InFormat (.zero s)
  | finite (s : Sign) {m : ℕ} {e : ℤ} (h : Canonical m e) : InFormat (.finite s m e h.pos)

/-- Equality but for the sign of a zero. -/
inductive Same : UnpackedFloat → UnpackedFloat → Prop where
  | zeros (s t : Sign) : Same (.zero s) (.zero t)
  | refl (u : UnpackedFloat) : Same u u

/-- A value has one form in the format. -/
theorem InFormat.same (hu : InFormat u) (hw : InFormat w) (h : rational u = rational w) : Same u w := by
  cases hu with
  | zero s =>
    cases hw with
    | zero t => exact .zeros s t
    | finite t H => exact absurd h.symm (rational_finite_ne_zero H.pos)
  | finite s H =>
    cases hw with
    | zero t => exact absurd h (rational_finite_ne_zero H.pos)
    | finite t K =>
      obtain ⟨rfl, hmag⟩ := eq_of_factor_mul_eq (magnitude_pos H.pos _) (magnitude_pos K.pos _) h
      obtain ⟨rfl, rfl⟩ := H.unique K hmag
      exact .refl _

theorem normalize_apply (hm : 0 < m) :
    UnpackedFloat.normalize Format.binary64 (s.apply m) e t = UnpackedFloat.round Format.binary64 s m e := by
  cases s with
  | negative =>
    have hneg : compare (-(m : ℤ)) 0 = .lt := Int.compare_eq_lt.mpr (by omega)
    simp only [UnpackedFloat.normalize, Sign.apply, hneg, neg_neg, Int.toNat_natCast]
  | positive =>
    have hpos : compare (m : ℤ) 0 = .gt := Int.compare_eq_gt.mpr (by omega)
    simp only [UnpackedFloat.normalize, Sign.apply, hpos, Int.toNat_natCast]

theorem exists_apply (ha : a ≠ 0) : ∃ s : Sign, ∃ m : ℕ, 0 < m ∧ a = s.apply m := by
  rcases lt_or_gt_of_ne ha with hneg | hpos
  · exact ⟨.negative, a.natAbs, by omega, by simp only [Sign.apply]; omega⟩
  · exact ⟨.positive, a.natAbs, by omega, by simp only [Sign.apply]; omega⟩

/-- Rounding a signed integer times a power of two gives its form in the format, if it has one. -/
theorem normalize_same (hw : InFormat w) (h : (a : ℚ) * 2 ^ e = rational w) :
    Same (UnpackedFloat.normalize Format.binary64 a e s) w := by
  by_cases ha : a = 0
  · subst ha
    refine InFormat.same (.zero s) hw ?_
    rw [← h, Int.cast_zero, zero_mul]
    rfl
  obtain ⟨t, m, hm, rfl⟩ := exists_apply ha
  rw [cast_apply, mul_assoc] at h
  rw [normalize_apply hm]
  cases hw with
  | zero s' => exact absurd h (rational_finite_ne_zero hm)
  | finite s' H =>
    obtain ⟨rfl, hmag⟩ := eq_of_factor_mul_eq (magnitude_pos hm e) (magnitude_pos H.pos _) h
    rw [round_eq H hmag hm]
    exact .refl _

end Signed

/-! ## The four operations -/

section Operations

variable {u v w : UnpackedFloat}

theorem add_same (hu : InFormat u) (hv : InFormat v) (hw : InFormat w) (h : rational u + rational v = rational w) :
    Same (UnpackedFloat.add Format.binary64 u v) w := by
  cases hu with
  | zero s =>
    have hvw : rational v = rational w := by
      rw [← h]
      exact (zero_add _).symm
    cases hv with
    | zero t =>
      obtain ⟨r, hr⟩ : ∃ r, UnpackedFloat.add Format.binary64 (.zero s) (.zero t) = .zero r := by
        cases s <;> cases t <;> exact ⟨_, rfl⟩
      rw [hr]
      exact InFormat.same (.zero r) hw hvw
    | finite t K => exact InFormat.same (.finite t K) hw hvw
  | finite s H =>
    cases hv with
    | zero t =>
      refine InFormat.same (.finite s H) hw ?_
      rw [← h]
      exact (add_zero _).symm
    | finite t K =>
      rename_i m₁ e₁ m₂ e₂
      -- both mantissas are brought to the smaller exponent
      refine normalize_same hw ?_
      rw [Int.cast_add, cast_apply, cast_apply, add_mul, mul_assoc, mul_assoc, shifted_value (min_le_left e₁ e₂),
        shifted_value (min_le_right e₁ e₂)]
      exact h

theorem rational_neg (u : UnpackedFloat) : rational u.neg = -rational u := by
  cases u with
  | infinity s => exact neg_zero.symm
  | notANumber => exact neg_zero.symm
  | zero s => exact neg_zero.symm
  | finite s m e hm =>
    show factor (-s) * _ = _
    rw [factor_neg, neg_mul]
    rfl

theorem InFormat.neg (hu : InFormat u) : InFormat u.neg := by
  cases hu with
  | zero s => exact .zero (-s)
  | finite s H => exact .finite (-s) H

theorem sub_eq_add_neg (hu : InFormat u) (hv : InFormat v) :
    UnpackedFloat.sub Format.binary64 u v = UnpackedFloat.add Format.binary64 u v.neg := by
  cases hu with
  | zero s => cases hv <;> rfl
  | finite s H =>
    cases hv with
    | zero t => rfl
    | finite t K =>
      have hneg : ∀ n : ℤ, (-t).apply n = -t.apply n := by
        intro n
        cases t with
        | negative => exact (neg_neg n).symm
        | positive => rfl
      simp only [UnpackedFloat.sub, UnpackedFloat.neg, UnpackedFloat.add, hneg, Int.sub_eq_add_neg]

theorem sub_same (hu : InFormat u) (hv : InFormat v) (hw : InFormat w) (h : rational u - rational v = rational w) :
    Same (UnpackedFloat.sub Format.binary64 u v) w := by
  rw [sub_eq_add_neg hu hv]
  refine add_same hu hv.neg hw ?_
  rw [rational_neg, ← h]
  ring

/-- A product of two mantissas is no shorter than a mantissa, unless both are subnormal and the exponent is small. -/
theorem Canonical.add_exponent_le {m₁ m₂ : ℕ} {e₁ e₂ : ℤ} (H : Canonical m₁ e₁) (K : Canonical m₂ e₂)
    (L : Canonical M E) (h : ((m₁ * m₂ : ℕ) : ℚ) * 2 ^ (e₁ + e₂) = M * 2 ^ E) : e₁ + e₂ ≤ E := by
  have htotal := totalExponent_congr (Nat.mul_pos H.pos K.pos) L.pos h
  have hlog := le_log2_mul H.pos K.pos
  have h₁ := H.exponent_eq
  have h₂ := K.exponent_eq
  have h₃ := L.exponent_eq
  simp only [totalExponent] at htotal
  omega

theorem mul_same (hu : InFormat u) (hv : InFormat v) (hw : InFormat w) (h : rational u * rational v = rational w) :
    Same (UnpackedFloat.mul Format.binary64 u v) w := by
  cases hu with
  | zero s =>
    have h0 : 0 = rational w := by
      rw [← h]
      exact (zero_mul _).symm
    cases hv with
    | zero t => exact InFormat.same (.zero (s * t)) hw h0
    | finite t K => exact InFormat.same (.zero (s * t)) hw h0
  | finite s H =>
    cases hv with
    | zero t =>
      refine InFormat.same (.zero (s * t)) hw ?_
      rw [← h]
      exact (mul_zero _).symm
    | finite t K =>
      rename_i m₁ e₁ m₂ e₂
      have hm : 0 < m₁ * m₂ := Nat.mul_pos H.pos K.pos
      have hprod : factor (s * t) * ((m₁ * m₂ : ℕ) * 2 ^ (e₁ + e₂)) = rational w := by
        rw [← h, factor_mul, zpow_add₀ two_ne_zero]
        push_cast [rational]
        ring
      cases hw with
      | zero r => exact absurd hprod (rational_finite_ne_zero hm)
      | finite r L =>
        rename_i M E
        obtain ⟨rfl, hmag⟩ := eq_of_factor_mul_eq (magnitude_pos hm _) (magnitude_pos L.pos _) hprod
        show Same (roundWithAccuracy _ _ _ _ _) _
        rw [roundWithAccuracy_eq L hmag hm (H.add_exponent_le K L hmag)]
        exact .refl _

/-- An exact quotient leaves no rest. -/
theorem divCore_eq {m₁ m₂ : ℕ} {e₁ e₂ : ℤ} (h₁ : 0 < m₁) (h₂ : 0 < m₂) (L : Canonical M E)
    (h : (m₁ : ℚ) * 2 ^ (e₁ - e₂) = (m₂ * M : ℕ) * 2 ^ E) :
    ∃ T ≤ E, divCore Format.binary64 m₁ e₁ m₂ e₂ = (M * 2 ^ (E - T).toNat, T, .exact) := by
  obtain ⟨T, hT⟩ : ∃ T, min (e₁ - e₂)
      (Format.binary64.targetExponent (totalExponent m₁ e₁ - totalExponent m₂ e₂)) = T := ⟨_, rfl⟩
  have hle : T ≤ E := by
    -- the digits of the divisor and of the quotient are at most one more than those of the dividend
    have htotal := totalExponent_congr h₁ (Nat.mul_pos h₂ L.pos) h
    have hlog := log2_mul_le h₂ L.pos
    have hL := L.exponent_eq
    simp only [totalExponent, targetExponent_eq] at htotal hT
    omega
  have hshift : m₁ <<< (e₁ - e₂ - T).toNat = m₂ * (M * 2 ^ (E - T).toNat) := by
    have hvalue := shifted_value (m := m₁) (hT.symm.le.trans (min_le_left ..))
    rw [h] at hvalue
    rw [eq_mul_two_pow hvalue hle, Nat.mul_assoc]
  refine ⟨T, hle, ?_⟩
  simp only [divCore, hT, hshift, Nat.mul_div_cancel_left _ h₂, Nat.mul_mod_right]
  rfl

theorem div_same (hu : InFormat u) (hv : InFormat v) (hw : InFormat w) (h0 : rational v ≠ 0)
    (h : rational u / rational v = rational w) : Same (UnpackedFloat.div Format.binary64 u v) w := by
  cases hv with
  | zero t => exact absurd rfl h0
  | finite t K =>
    cases hu with
    | zero s =>
      refine InFormat.same (.zero (s / t)) hw ?_
      rw [← h]
      exact (zero_div _).symm
    | finite s H =>
      rename_i m₂ e₂ m₁ e₁
      have hpos : (0 : ℚ) < m₁ * 2 ^ e₁ / (m₂ * 2 ^ e₂) := div_pos (magnitude_pos H.pos e₁) (magnitude_pos K.pos e₂)
      have hquot : factor (s / t) * (m₁ * 2 ^ e₁ / (m₂ * 2 ^ e₂)) = rational w := by
        rw [← h, factor_div, ← mul_div_mul_comm]
        rfl
      cases hw with
      | zero r => exact absurd hquot (mul_ne_zero (factor_ne_zero _) hpos.ne')
      | finite r L =>
        rename_i M E
        obtain ⟨rfl, hmag⟩ := eq_of_factor_mul_eq hpos (magnitude_pos L.pos _) hquot
        obtain ⟨T, hle, hcore⟩ := divCore_eq H.pos K.pos L (mul_of_div_eq K.pos hmag)
        have hvalue : ((M * 2 ^ (E - T).toNat : ℕ) : ℚ) * 2 ^ T = M * 2 ^ E := by
          rw [← Nat.shiftLeft_eq, shifted_value hle]
        have hround := roundWithAccuracy_eq (s := s / t) L hvalue (Nat.mul_pos L.pos (Nat.two_pow_pos _)) hle
        simp only [UnpackedFloat.div, hcore, hround]
        exact .refl _

end Operations

end Binary64

/-! ## Operators -/

namespace Operator

open Binary64

variable {o : Operator} {u v w : UnpackedFloat}

/-- The exact value of an operation; a division by zero has none. -/
def onRationals? : Operator → ℚ → ℚ → Option ℚ
  | add, p, q => some (p + q)
  | sub, p, q => some (p - q)
  | mul, p, q => some (p * q)
  | div, p, q => if q = 0 then none else some (p / q)

/-- **An exact value in the format** is the value of the operation, up to the sign of a zero. -/
theorem onUnpacked_same (hu : InFormat u) (hv : InFormat v) (hw : InFormat w)
    (h : o.onRationals? (rational u) (rational v) = some (rational w)) : Same (o.onUnpacked u v) w := by
  cases o with
  | add => exact add_same hu hv hw (Option.some.inj h)
  | sub => exact sub_same hu hv hw (Option.some.inj h)
  | mul => exact mul_same hu hv hw (Option.some.inj h)
  | div =>
    rw [onRationals?] at h
    split_ifs at h with h0
    exact div_same hu hv hw h0 (Option.some.inj h)

end Operator

end DeskCalc
