import DeskCalc.Proofs.Exact

/-!
# DeskCalc.Proofs.Value — the values of floats as rational numbers

* `value x`: the units of the code of `x` with the sign of `x`.
* `inFormat_unpack`: a finite float, taken apart, is in the form of the format, with this value.
* `lt_zero_iff`, `beq_zero_iff`: a finite float is compared with zero as its value is.
* `apply_exact`: so an operation on finite floats whose exact value is that of a finite float has this value.
-/

namespace DeskCalc

namespace Binary64

open Float.Model (Format UnpackedFloat totalExponent)
open Float.Model.UnpackedFloat
open Decimal (allPlaces)

variable {m M c : ℕ} {e E : ℤ} {s : Sign} {negative : Bool} {x y z : Float} {o : Operator}

/-! ## Codes and their words -/

section Words

theorem factor_unpackSign_word (hc : c < 2 ^ 63) :
    factor (Sign.ofBitVec (unpackSign (word negative c))) = if negative then -1 else 1 := by
  cases negative with
  | true =>
    have hs : unpackSign (word true c) = 1#1 := BitVec.eq_of_toNat_eq (unpackSign_word hc)
    rw [hs]
    rfl
  | false =>
    have hs : unpackSign (word false c) = 0#1 := BitVec.eq_of_toNat_eq (unpackSign_word hc)
    rw [hs]
    rfl

theorem canonical_of_lt (h0 : 0 < c) (h : c < 2 ^ 52) : Canonical c (-1074) := by
  have hlog : c.log2 < 52 := (Nat.log2_lt h0.ne').mpr h
  refine ⟨h0, ?_⟩
  rw [targetExponent_eq, totalExponent]
  omega

theorem canonical_of_le (h : 2 ^ 52 ≤ c) : Canonical (2 ^ 52 + c % 2 ^ 52) ((c / 2 ^ 52 : ℕ) - 1075) := by
  have hlog : (2 ^ 52 + c % 2 ^ 52).log2 = 52 := log2_eq_of_bounds (Nat.le_add_right ..) (by omega)
  refine ⟨by omega, ?_⟩
  rw [targetExponent_eq, totalExponent, hlog]
  omega

theorem units_div_of_lt (h : c < 2 ^ 52) : (units c : ℚ) / unitsPerOne = c * 2 ^ (-1074 : ℤ) := by
  have hplaces : (-1074 : ℤ) = -(allPlaces : ℤ) := by rw [allPlaces_eq]; rfl
  rw [units_of_lt h, unitsPerOne_eq, hplaces, zpow_neg, zpow_natCast, Nat.cast_pow, Nat.cast_ofNat, div_eq_mul_inv]

theorem units_div_of_le (h : 2 ^ 52 ≤ c) :
    (units c : ℚ) / unitsPerOne = (2 ^ 52 + c % 2 ^ 52 : ℕ) * 2 ^ ((c / 2 ^ 52 : ℕ) - 1075 : ℤ) := by
  have hexp : ((c / 2 ^ 52 : ℕ) - 1075 : ℤ) = (c / 2 ^ 52 - 1 : ℕ) - (allPlaces : ℤ) := by
    rw [allPlaces_eq]
    omega
  rw [units_of_le h, unitsPerOne_eq, hexp, zpow_sub₀ two_ne_zero, zpow_natCast, zpow_natCast, Nat.cast_mul,
    Nat.cast_pow, Nat.cast_pow, Nat.cast_ofNat, mul_div_assoc]

theorem inFormat_finite (H : Canonical M E) (hm : m = M) (he : e = E) (hpos : 0 < m) :
    InFormat (.finite s m e hpos) ∧ rational (.finite s m e hpos) = factor s * (M * 2 ^ E) := by
  subst hm he
  exact ⟨.finite s H, rfl⟩

theorem toNat_append_one {n : ℕ} (b : BitVec n) : (1#1 ++ b).toNat = 2 ^ n + b.toNat := by
  have hor := Nat.two_pow_add_eq_or_of_lt b.isLt 1
  rw [Nat.mul_one] at hor
  rw [BitVec.toNat_append, hor]
  simp [Nat.shiftLeft_eq]

/-- The word of a finite code stands for the units of the code. -/
theorem inFormat_unpack_word (hc : c < infinity) :
    InFormat (UnpackedFloat.unpack Format.binary64 (word negative c)) ∧
      rational (UnpackedFloat.unpack Format.binary64 (word negative c)) =
        factor (Sign.ofBitVec (unpackSign (word negative c))) * (units c / unitsPerOne) := by
  have hlt : c < 2 ^ 63 := hc.trans infinity_lt
  have htop : c < 2047 * 2 ^ 52 := infinity_eq ▸ hc
  have hm : (unpackMantissa (word negative c)).toNat = c % 2 ^ 52 := unpackMantissa_word hlt
  have he : (unpackExponent (word negative c)).toNat = c / 2 ^ 52 := unpackExponent_word hlt
  have hbias : ((Format.binary64.exponentBias : ℤ) + (52 : ℕ)) = 1075 := rfl
  have hinf : ¬unpackExponent (word negative c) = -1#11 := by
    intro h
    have hexp : c / 2 ^ 52 = 2047 := he.symm.trans (congrArg BitVec.toNat h)
    omega
  unfold UnpackedFloat.unpack
  dsimp only
  rw [if_neg hinf]
  split_ifs with hexp hmant
  · have hsmall : c / 2 ^ 52 = 0 := he.symm.trans (congrArg BitVec.toNat hexp)
    have hnone : c % 2 ^ 52 = 0 := hm.symm.trans (congrArg BitVec.toNat hmant)
    have h0 : units c = 0 := (units_of_lt (by omega)).trans (by omega)
    refine ⟨.zero _, ?_⟩
    rw [h0, Nat.cast_zero, zero_div, mul_zero]
    rfl
  · -- a subnormal code is its own mantissa
    have hsmall : c / 2 ^ 52 = 0 := he.symm.trans (congrArg BitVec.toNat hexp)
    have hself : c % 2 ^ 52 = c := Nat.mod_eq_of_lt (by omega)
    have hpos : 0 < c := by
      rw [← hself, ← hm]
      exact Nat.pos_of_ne_zero fun h => hmant (BitVec.eq_of_toNat_eq h)
    rw [units_div_of_lt (by omega)]
    refine inFormat_finite (canonical_of_lt hpos (by omega)) (hm.trans hself) ?_ _
    rw [hbias, he, hsmall]
    rfl
  · -- the first digit of the others is not written
    have hlarge : 2 ^ 52 ≤ c := by
      by_contra hlt
      refine hexp (BitVec.eq_of_toNat_eq (he.trans ?_))
      exact Nat.div_eq_of_lt (Nat.lt_of_not_le hlt)
    rw [units_div_of_le hlarge]
    refine inFormat_finite (canonical_of_le hlarge) ((toNat_append_one _).trans (congrArg _ hm)) ?_ _
    rw [hbias, he]

end Words

/-! ## Floats -/

section Floats

/-- The value of a finite float. -/
def value (x : Float) : ℚ := (if isNegative x then -1 else 1) * (units (code x) / unitsPerOne)

/-- A finite float has the form of the format, and its value is that of its form. -/
theorem inFormat_unpack (hx : x.isFinite = true) :
    InFormat x.toModel.unpack ∧ rational x.toModel.unpack = value x := by
  have hc : code x < infinity := isFinite_iff.mp hx
  have hunpack : x.toModel.unpack = UnpackedFloat.unpack Format.binary64 (word (isNegative x) (code x)) := by
    rw [← unpack_ofCode hc.le, ofCode_code]
  rw [hunpack, value, ← factor_unpackSign_word (hc.trans infinity_lt)]
  exact inFormat_unpack_word hc

/-- Both zeros have the value zero. -/
theorem value_zero (s : Sign) :
    (Float.ofModel (.pack (.zero s))).isFinite = true ∧ value (.ofModel (.pack (.zero s))) = 0 := by
  have hunpack : (Float.ofModel (.pack (.zero s))).toModel.unpack = .zero s := by
    cases s <;> rfl
  have hfinite : (Float.ofModel (.pack (.zero s))).isFinite = true := congrArg UnpackedFloat.isFinite hunpack
  refine ⟨hfinite, ?_⟩
  rw [← (inFormat_unpack hfinite).2, hunpack]
  rfl

/-- **Exact operations**: an operation on finite floats whose exact value is that of a finite float has this value. -/
theorem apply_exact (hx : x.isFinite = true) (hy : y.isFinite = true) (hz : z.isFinite = true)
    (h : o.onRationals? (value x) (value y) = some (value z)) :
    (o.apply x y).isFinite = true ∧ value (o.apply x y) = value z := by
  obtain ⟨hu, hx'⟩ := inFormat_unpack hx
  obtain ⟨hv, hy'⟩ := inFormat_unpack hy
  obtain ⟨hw, hz'⟩ := inFormat_unpack hz
  rw [← hx', ← hy', ← hz'] at h
  have hsame := Operator.onUnpacked_same hu hv hw h
  rw [Operator.apply_eq]
  generalize o.onUnpacked x.toModel.unpack y.toModel.unpack = r at hsame
  generalize hwz : z.toModel.unpack = w at hsame
  cases hsame with
  | zeros s t =>
    rw [← hz', hwz]
    exact value_zero s
  | refl =>
    rw [← hwz, model_pack_unpack]
    exact ⟨hz, rfl⟩

end Floats

/-! ## Comparing with zero -/

section Signs

/-- Comparing with zero. -/
theorem compare_zero {u : UnpackedFloat} (hu : InFormat u) :
    u.compare (.zero .positive) = some (compare (rational u) 0) := by
  cases hu with
  | zero s =>
    have hzero : rational (.zero s) = 0 := rfl
    rw [hzero, compare_eq_iff_eq.mpr rfl]
    rfl
  | @finite s m e h =>
    have hpos := magnitude_pos h.pos e
    cases s with
    | negative =>
      have hneg : rational (.finite .negative m e h.pos) < 0 := by
        rw [rational, factor, neg_one_mul]
        exact neg_neg_of_pos hpos
      rw [compare_lt_iff_lt.mpr hneg]
      rfl
    | positive =>
      have hgt : 0 < rational (.finite .positive m e h.pos) := by
        rwa [rational, factor, one_mul]
      rw [compare_gt_iff_gt.mpr hgt]
      rfl

theorem lt_zero_iff (hx : x.isFinite = true) : x < 0 ↔ value x < 0 := by
  obtain ⟨hu, hvalue⟩ := inFormat_unpack hx
  have hlt : x < 0 ↔ decide (x.toModel.unpack.compare (.zero .positive) == some .lt) = true := Iff.rfl
  rw [← hvalue, hlt, compare_zero hu, ← compare_lt_iff_lt]
  simp

theorem beq_zero_iff (hx : x.isFinite = true) : (x == 0) = true ↔ value x = 0 := by
  obtain ⟨hu, hvalue⟩ := inFormat_unpack hx
  have heq : (x == 0) = (x.toModel.unpack.compare (.zero .positive) == some .eq) := rfl
  rw [← hvalue, heq, compare_zero hu, ← compare_eq_iff_eq]
  simp

end Signs

end Binary64

end DeskCalc
