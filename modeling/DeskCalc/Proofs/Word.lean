import DeskCalc.Proofs.Rounding
import Mathlib

/-!
# DeskCalc.Proofs.Word — floats and their bits

* The word of a sign and a code falls into three fields, and up to the code of infinity it is not one of the words of
  NaN (`valid_word`).  Such a word is not changed by taking it apart and packing it again.
* So the sign and the code of a float are those that it was made of (`code_ofCode`, `isNegative_ofCode`), and every
  float is made of its sign and its code (`ofCode_code`).
* `isFinite_iff`: the finite floats are those whose code is below `infinity`.
* `zero_sub_ofCode`: subtracting from zero sets the sign.
-/

namespace DeskCalc.Binary64

open Float.Model (Format UnpackedFloat)
open Float.Model.UnpackedFloat

/-! ## The fields of a word -/

section Fields

variable {b : BitVec Format.binary64.numBits}

theorem toNat_unpackMantissa : (unpackMantissa b).toNat = b.toNat % 2 ^ 52 := by
  simp [unpackMantissa]

theorem toNat_unpackExponent : (unpackExponent b).toNat = b.toNat / 2 ^ 52 % 2 ^ 11 := by
  simp [unpackExponent, Nat.shiftRight_eq_div_pow]

theorem toNat_unpackSign : (unpackSign b).toNat = b.toNat / 2 ^ 63 % 2 := by
  simp [unpackSign, Nat.shiftRight_eq_div_pow]

end Fields

/-! ## Words of a sign and a code -/

section Words

variable {negative : Bool} {c : ℕ}

/-- The bits of a sign and a code, as a number. -/
def bits (negative : Bool) (c : ℕ) : ℕ := (if negative then 2 ^ 63 else 0) + c

/-- The word of a sign and a code. -/
def word (negative : Bool) (c : ℕ) : BitVec Format.binary64.numBits := BitVec.ofNat 64 (bits negative c)

theorem bits_eq : bits negative c = negative.toNat * 2 ^ 63 + c := by
  cases negative <;> simp [bits]

theorem infinity_lt : infinity < 2 ^ 63 := by
  rw [infinity_eq]
  decide

theorem toNat_word (hc : c < 2 ^ 63) : (word negative c).toNat = negative.toNat * 2 ^ 63 + c := by
  have hlt : bits negative c < 2 ^ 64 := by
    rw [bits_eq]
    cases negative <;> simp <;> omega
  rw [← bits_eq]
  exact (BitVec.toNat_ofNat ..).trans (Nat.mod_eq_of_lt hlt)

theorem unpackMantissa_word (hc : c < 2 ^ 63) : (unpackMantissa (word negative c)).toNat = c % 2 ^ 52 := by
  rw [toNat_unpackMantissa, toNat_word hc]
  omega

theorem unpackExponent_word (hc : c < 2 ^ 63) : (unpackExponent (word negative c)).toNat = c / 2 ^ 52 := by
  rw [toNat_unpackExponent, toNat_word hc]
  omega

theorem unpackSign_word (hc : c < 2 ^ 63) : (unpackSign (word negative c)).toNat = negative.toNat := by
  rw [toNat_unpackSign, toNat_word hc]
  cases negative <;> simp <;> omega

/-- The words of finite and infinite codes are no NaN. -/
theorem valid_word (hc : c ≤ infinity) : Format.binary64.Valid (word negative c) := by
  have hlt : c < 2 ^ 63 := hc.trans_lt infinity_lt
  refine ⟨fun he hm => absurd ?_ hm⟩
  have hexp : c / 2 ^ 52 = 2047 := by
    have hword : (unpackExponent (word negative c)).toNat = c / 2 ^ 52 := unpackExponent_word hlt
    rw [← hword, he]
    rfl
  have htop : c ≤ 2047 * 2 ^ 52 := infinity_eq ▸ hc
  apply BitVec.eq_of_toNat_eq
  rw [unpackMantissa_word hlt]
  show c % 2 ^ 52 = 0
  omega

/-- The sign bit is the sign, and nothing else depends on it. -/
theorem unpack_word_true (hc : c < 2 ^ 63) :
    UnpackedFloat.unpack Format.binary64 (word true c) = (UnpackedFloat.unpack Format.binary64 (word false c)).neg := by
  have hm : unpackMantissa (word true c) = unpackMantissa (word false c) := by
    apply BitVec.eq_of_toNat_eq
    rw [unpackMantissa_word hc, unpackMantissa_word hc]
  have he : unpackExponent (word true c) = unpackExponent (word false c) := by
    apply BitVec.eq_of_toNat_eq
    rw [unpackExponent_word hc, unpackExponent_word hc]
  have hs : unpackSign (word true c) = 1#1 := BitVec.eq_of_toNat_eq (unpackSign_word hc)
  have hs' : unpackSign (word false c) = 0#1 := BitVec.eq_of_toNat_eq (unpackSign_word hc)
  simp only [UnpackedFloat.unpack, hm, he, hs, hs']
  split_ifs <;> rfl

end Words

/-! ## Floats -/

section Floats

variable {negative : Bool} {c : ℕ} {x : Float}

theorem code_eq (x : Float) : code x = x.toBits.toNat % 2 ^ 63 := by
  simp only [code, Nat.pow_eq]

theorem isNegative_eq (x : Float) : isNegative x = decide (2 ^ 63 ≤ x.toBits.toNat) := by
  simp only [isNegative, Nat.pow_eq]

theorem ofCode_eq (negative : Bool) (c : ℕ) : ofCode negative c = .ofBits (.ofNat (bits negative c)) := by
  simp only [ofCode, bits, Nat.pow_eq]

theorem model_pack_unpack (m : Float.Model) : Float.Model.pack m.unpack = m := by
  obtain ⟨w, hw⟩ := m
  have h : UnpackedFloat.pack Format.binary64 (UnpackedFloat.unpack Format.binary64 w.toBitVec) = w.toBitVec :=
    pack_unpack_of_valid hw
  simp only [Float.Model.pack, Float.Model.unpack, h]

/-- A float is made of its sign and its code. -/
theorem ofCode_code (x : Float) : ofCode (isNegative x) (code x) = x := by
  have hlt : x.toBits.toNat < 2 ^ 64 := x.toBits.toNat_lt
  have hbits : bits (isNegative x) (code x) = x.toBits.toNat := by
    rw [bits, code_eq, isNegative_eq]
    split_ifs with h
    · have hle := of_decide_eq_true h
      omega
    · have hgt := of_decide_eq_false (Bool.eq_false_iff.mpr h)
      omega
  rw [ofCode_eq, hbits, UInt64.ofNat_toNat, Float.ofBits_toBits]

theorem toBits_ofCode (hc : c ≤ infinity) : (ofCode negative c).toBits.toNat = negative.toNat * 2 ^ 63 + c := by
  have hpack : UnpackedFloat.pack Format.binary64 (UnpackedFloat.unpack Format.binary64 (word negative c)) =
      word negative c := pack_unpack_of_valid (valid_word hc)
  rw [ofCode_eq, ← toNat_word (hc.trans_lt infinity_lt), ← hpack]
  rfl

theorem code_ofCode (hc : c ≤ infinity) : code (ofCode negative c) = c := by
  have hlt : c < 2 ^ 63 := hc.trans_lt infinity_lt
  rw [code_eq, toBits_ofCode hc]
  omega

theorem isNegative_ofCode (hc : c ≤ infinity) : isNegative (ofCode negative c) = negative := by
  have hlt : c < 2 ^ 63 := hc.trans_lt infinity_lt
  rw [isNegative_eq, toBits_ofCode hc]
  cases negative with
  | true => simp
  | false => simpa using hlt

theorem isFinite_unpack (b : BitVec Format.binary64.numBits) :
    (UnpackedFloat.unpack Format.binary64 b).isFinite = true ↔ b.toNat % 2 ^ 63 < 2047 * 2 ^ 52 := by
  have hexp : unpackExponent b = -1#_ ↔ b.toNat / 2 ^ 52 % 2 ^ 11 = 2047 := by
    rw [← toNat_unpackExponent]
    exact BitVec.toNat_inj.symm
  have hiff : b.toNat % 2 ^ 63 < 2047 * 2 ^ 52 ↔ ¬unpackExponent b = -1#_ := by
    rw [hexp]
    omega
  rw [hiff]
  unfold UnpackedFloat.unpack
  dsimp only
  split_ifs with h
  · exact iff_of_false Bool.false_ne_true (not_not_intro h)
  · exact iff_of_false Bool.false_ne_true (not_not_intro h)
  · exact iff_of_true rfl h
  · exact iff_of_true rfl h
  · exact iff_of_true rfl h

/-- The finite floats are those whose code is below that of infinity. -/
theorem isFinite_iff : x.isFinite = true ↔ code x < infinity := by
  have hunpack : x.isFinite = (UnpackedFloat.unpack Format.binary64 x.toBits.toBitVec).isFinite := rfl
  rw [hunpack, isFinite_unpack, code_eq, infinity_eq, UInt64.toNat_toBitVec]

theorem isFinite_ofCode (hc : c < infinity) : (ofCode negative c).isFinite = true :=
  isFinite_iff.mpr ((code_ofCode hc.le).trans_lt hc)

theorem unpack_ofCode (hc : c ≤ infinity) :
    (ofCode negative c).toModel.unpack = UnpackedFloat.unpack Format.binary64 (word negative c) := by
  have hbits : (ofCode negative c).toBits.toBitVec = word negative c := by
    apply BitVec.eq_of_toNat_eq
    rw [toNat_word (hc.trans_lt infinity_lt)]
    exact toBits_ofCode hc
  exact congrArg (UnpackedFloat.unpack Format.binary64) hbits

theorem zero_sub_unpacked {u : UnpackedFloat} (hu : u.isFinite = true) (h0 : ∀ s, u ≠ .zero s) :
    UnpackedFloat.sub Format.binary64 (.zero .positive) u = u.neg := by
  cases u with
  | infinity s => exact nomatch hu
  | notANumber => exact nomatch hu
  | zero s => exact absurd rfl (h0 s)
  | finite s m e hm => rfl

/-- Only the code zero stands for a zero. -/
theorem unpack_word_ne_zero (h0 : c ≠ 0) (hc : c ≤ infinity) (s : Sign) :
    UnpackedFloat.unpack Format.binary64 (word negative c) ≠ .zero s := by
  have hlt : c < 2 ^ 63 := hc.trans_lt infinity_lt
  rw [Ne, unpack_eq_zero_iff_of_valid (valid_word hc)]
  intro hzero
  have hm : (unpackMantissa (word negative c)).toNat = c % 2 ^ 52 := unpackMantissa_word hlt
  have he : (unpackExponent (word negative c)).toNat = c / 2 ^ 52 := unpackExponent_word hlt
  rw [hzero, packedZero, unpackMantissa_packComponents] at hm
  rw [hzero, packedZero, unpackExponent_packComponents] at he
  change 0 = _ at hm
  change 0 = _ at he
  omega

/-- Subtracting from zero sets the sign. -/
theorem zero_sub_ofCode (h0 : c ≠ 0) (hc : c < infinity) : ofCode false 0 - ofCode false c = ofCode true c := by
  have hlt : c < 2 ^ 63 := hc.trans infinity_lt
  have hfinite : (UnpackedFloat.unpack Format.binary64 (word false c)).isFinite = true := by
    rw [← unpack_ofCode hc.le]
    exact isFinite_iff.mpr ((code_ofCode hc.le).trans_lt hc)
  have hzero : (ofCode false 0).toModel.unpack = .zero .positive := by
    rw [unpack_ofCode (Nat.zero_le _)]
    rfl
  calc ofCode false 0 - ofCode false c
      = .ofModel (.pack (UnpackedFloat.sub Format.binary64 (ofCode false 0).toModel.unpack
          (ofCode false c).toModel.unpack)) := rfl
    _ = .ofModel (.pack (UnpackedFloat.unpack Format.binary64 (word true c))) := by
        rw [hzero, unpack_ofCode hc.le, zero_sub_unpacked hfinite (unpack_word_ne_zero h0 hc.le), unpack_word_true hlt]
    _ = ofCode true c := by
        rw [← unpack_ofCode hc.le, model_pack_unpack]

end Floats

end DeskCalc.Binary64
