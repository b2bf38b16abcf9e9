import DeskCalc.Answer
import DeskCalc.Proofs.Rounding

/-!
# DeskCalc.Proofs.Shortest — the decimal that is written rounds to the value it was written for

* Every grid point that the search accepts rounds to the code, and so does the last grid, on which the value itself
  lies (`nearest_coarsest`).
* `nearestCode_decimal`: so the decimal written for a finite code is read as that code, for whole values and for those
  with places alike.
-/

namespace DeskCalc

namespace Decimal

open Binary64

variable {code n c : ℕ}

/-! ## The search -/

section Search

theorem readsBack_iff : readsBack code n c = true ↔ nearest (c * 10 ^ n) (10 ^ allPlaces) = code := by
  simp only [readsBack, Nat.pow_eq, beq_iff_eq]

theorem closer?_cases {value spacing below : ℕ} {b₁ b₂ : Bool} (h : closer? value spacing below b₁ b₂ = some c) :
    (c = below ∧ b₁ = true) ∨ (c = below + 1 ∧ b₂ = true) := by
  cases b₁ with
  | false =>
    cases b₂ with
    | false => cases h
    | true => exact Or.inr ⟨(Option.some.inj h).symm, rfl⟩
  | true =>
    cases b₂ with
    | false => exact Or.inl ⟨(Option.some.inj h).symm, rfl⟩
    | true =>
      have hc := (Option.some.inj h).symm
      split_ifs at hc
      · exact Or.inl ⟨hc, rfl⟩
      · exact Or.inr ⟨hc, rfl⟩

/-- A point found on a grid rounds to the code. -/
theorem readsBack_of_gridPoint? (h : gridPoint? code n = some c) : readsBack code n c = true := by
  rw [gridPoint?] at h
  rcases closer?_cases h with ⟨rfl, hb⟩ | ⟨rfl, hb⟩
  · exact hb
  · exact hb

/-- In single steps the value itself is a point. -/
theorem nearest_steps (hc : code ≤ infinity) : nearest (steps code) (10 ^ allPlaces) = code := by
  refine nearest_of_units hc (Nat.pow_pos (by decide)) ?_
  rw [steps, Nat.pow_eq, unitsPerOne_eq, Nat.mul_assoc, ← Nat.mul_pow]

/-- Whatever grid the search stops at, its point rounds to the code. -/
theorem nearest_coarsest (hc : code ≤ infinity) {p : ℕ × ℕ} (h : coarsest code n = p) :
    nearest (p.1 * 10 ^ p.2) (10 ^ allPlaces) = code := by
  induction n with
  | zero =>
    rw [coarsest] at h
    rw [← h, Nat.pow_zero, Nat.mul_one, nearest_steps hc]
  | succ n ih =>
    rw [coarsest] at h
    cases hpoint : gridPoint? code (n + 1) with
    | none =>
      rw [hpoint, Option.map_none, Option.getD_none] at h
      exact ih h
    | some c =>
      rw [hpoint, Option.map_some, Option.getD_some] at h
      rw [← h]
      exact readsBack_iff.mp (readsBack_of_gridPoint? hpoint)

end Search

/-! ## The decimal -/

section Spelled

/-- A coefficient on the grid of spacing `10 ^ n` steps, as a decimal. -/
theorem nearestCode_of_steps (c n : ℕ) :
    nearestCode ⟨c, (n : ℤ) - (allPlaces : ℤ)⟩ = nearest (c * 10 ^ n) (10 ^ allPlaces) := by
  rw [nearestCode_eq]
  generalize allPlaces = places
  rcases Nat.le_total places n with h | h
  · obtain ⟨m, rfl⟩ := Nat.exists_eq_add_of_le h
    have hexp : ((places + m : ℕ) : ℤ) - (places : ℤ) = (m : ℤ) := by omega
    rw [hexp, Int.toNat_natCast, Int.toNat_neg_natCast,
      ← nearest_mul_right (k := 10 ^ places) (Nat.pow_pos (by decide)), Nat.pow_zero, Nat.one_mul, Nat.mul_assoc,
      ← Nat.pow_add, Nat.add_comm m]
  · obtain ⟨m, rfl⟩ := Nat.exists_eq_add_of_le h
    have hexp : (n : ℤ) - ((n + m : ℕ) : ℤ) = -(m : ℤ) := by omega
    rw [hexp, Int.toNat_neg_natCast, Int.neg_neg, Int.toNat_natCast, Nat.pow_zero, Nat.mul_one,
      ← nearest_mul_right (k := 10 ^ n) (Nat.pow_pos (by decide)), ← Nat.pow_add, Nat.add_comm m]

/-- A whole value, as a decimal. -/
theorem nearestCode_of_units (hc : code ≤ infinity) (h : units code = c * unitsPerOne) : nearestCode ⟨c, 0⟩ = code := by
  rw [nearestCode_eq]
  exact nearest_of_units hc (by simp) (by simp [h])

/-- The shortest decimal rounds to its code. -/
theorem nearestCode_shortest (hc : code ≤ infinity) : (shortest code).nearestCode = code := by
  obtain ⟨p, hp⟩ : ∃ p, coarsest code (Nat.toDigits 10 (steps code)).length = p := ⟨_, rfl⟩
  have hshortest : shortest code = ⟨p.1, (p.2 : ℤ) - (allPlaces : ℤ)⟩ := by
    rw [shortest, hp]
  rw [hshortest, nearestCode_of_steps]
  exact nearest_coarsest hc hp

end Spelled

end Decimal

namespace Answer

open Binary64

variable {code : ℕ}

/-- **The decimal that is written** for a finite code rounds to it. -/
theorem nearestCode_decimal (hc : code ≤ infinity) : (decimal code).nearestCode = code := by
  unfold decimal
  split_ifs with h
  · exact Decimal.nearestCode_of_units hc (Nat.div_mul_cancel (Nat.dvd_of_mod_eq_zero h)).symm
  · exact Decimal.nearestCode_shortest hc

end Answer

end DeskCalc
