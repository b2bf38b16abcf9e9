import DeskCalc.Operator
import Mathlib.Tactic.ByContra

/-!
# DeskCalc.Proofs.Finite — which operations have finite values

* `isFinite_apply`: an operation with a finite value has finite operands, but for one case: a finite value divided
  by an infinite one is zero.
* `isFinite_div_zero`: no division by zero has a finite value.
-/

namespace DeskCalc.Operator

open Float.Model (Format UnpackedFloat pack)

section Unpacked

variable {o : Operator} {u v : UnpackedFloat}

/-- An operation on unpacked operands. -/
def onUnpacked : Operator → UnpackedFloat → UnpackedFloat → UnpackedFloat
  | add => UnpackedFloat.add Format.binary64
  | sub => UnpackedFloat.sub Format.binary64
  | mul => UnpackedFloat.mul Format.binary64
  | div => UnpackedFloat.div Format.binary64

theorem apply_eq (o : Operator) (x y : Float) :
    o.apply x y = .ofModel (pack (o.onUnpacked x.toModel.unpack y.toModel.unpack)) := by
  cases o <;> rfl

/-- Packing may lose a finite value to infinity, but it makes no value finite. -/
theorem isFinite_of_pack (h : (pack u).unpack.isFinite = true) : u.isFinite = true := by
  cases u with
  | infinity s => cases s <;> exact absurd h (by decide)
  | notANumber => exact absurd h (by decide)
  | zero s => rfl
  | finite s m e hm => rfl

theorem isFinite_onUnpacked_left (hu : u.isFinite = false) : (o.onUnpacked u v).isFinite = false := by
  cases u with
  | infinity s =>
    -- two infinite operands may have equal or opposite signs
    cases v with
    | infinity s' => cases o <;> cases s <;> cases s' <;> rfl
    | notANumber => cases o <;> rfl
    | zero s' => cases o <;> rfl
    | finite s' m e hm => cases o <;> rfl
  | notANumber => cases o <;> rfl
  | zero s => exact nomatch hu
  | finite s m e hm => exact nomatch hu

theorem isFinite_onUnpacked_right (hu : u.isFinite = true) (hv : v.isFinite = false) :
    (o.onUnpacked u v).isFinite = false ∨ (o = div ∧ v.isInf = true) := by
  cases v with
  | infinity s' =>
    cases u with
    | infinity s => exact nomatch hu
    | notANumber => exact nomatch hu
    | zero s =>
      cases o with
      | add | sub | mul => exact Or.inl rfl
      | div => exact Or.inr ⟨rfl, rfl⟩
    | finite s m e hm =>
      cases o with
      | add | sub | mul => exact Or.inl rfl
      | div => exact Or.inr ⟨rfl, rfl⟩
  | notANumber => exact Or.inl (by cases u <;> cases o <;> rfl)
  | zero s => exact nomatch hv
  | finite s m e hm => exact nomatch hv

theorem isFinite_div_unpacked_zero (s : UnpackedFloat.Sign) : (div.onUnpacked u (.zero s)).isFinite = false := by
  cases u <;> rfl

end Unpacked

section Floats

variable {o : Operator} {x y : Float}

theorem not_isInf_of_isFinite (h : x.isFinite = true) : ¬x.isInf = true := by
  intro hinf
  change x.toModel.unpack.isFinite = true at h
  change x.toModel.unpack.isInf = true at hinf
  generalize x.toModel.unpack = u at h hinf
  cases u with
  | infinity s => exact nomatch h
  | notANumber => exact nomatch h
  | zero s => exact nomatch hinf
  | finite s m e hm => exact nomatch hinf

/-- An infinite or undefined operand goes over into the value, unless it is divided by. -/
theorem isFinite_apply (h : (o.apply x y).isFinite = true) :
    (x.isFinite = true ∧ y.isFinite = true) ∨ (o = div ∧ x.isFinite = true ∧ y.isInf = true) := by
  rw [apply_eq] at h
  have hop := isFinite_of_pack h
  have hx : x.isFinite = true := by
    by_contra hx
    rw [isFinite_onUnpacked_left (Bool.eq_false_iff.mpr hx)] at hop
    exact absurd hop (by decide)
  by_cases hy : y.isFinite = true
  · exact Or.inl ⟨hx, hy⟩
  · rcases isFinite_onUnpacked_right (o := o) hx (Bool.eq_false_iff.mpr hy) with hn | ⟨ho, hinf⟩
    · exact absurd hop (by rw [hn]; decide)
    · exact Or.inr ⟨ho, hx, hinf⟩

theorem unpack_of_beq_zero (hy : (y == 0) = true) : ∃ s, y.toModel.unpack = .zero s := by
  have h : y.toModel.unpack.beq (0 : Float).toModel.unpack = true := hy
  have h0 : (0 : Float).toModel.unpack = .zero .positive := rfl
  rw [h0] at h
  generalize y.toModel.unpack = u at h
  cases u with
  | infinity s => cases s <;> exact absurd h (by decide)
  | notANumber => exact absurd h (by decide)
  | zero s => exact ⟨s, rfl⟩
  | finite s m e hm => cases s <;> exact nomatch h

/-- No division by zero has a finite value. -/
theorem isFinite_div_zero (hy : (y == 0) = true) : (div.apply x y).isFinite = false := by
  obtain ⟨s, hs⟩ := unpack_of_beq_zero hy
  by_contra hne
  rw [Bool.not_eq_false, apply_eq, hs] at hne
  have h := isFinite_of_pack hne
  rw [isFinite_div_unpacked_zero] at h
  exact absurd h (by decide)

end Floats

end DeskCalc.Operator
