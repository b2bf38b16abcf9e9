import DeskCalc.Proofs.Nearest
import DeskCalc.Proofs.Shortest

/-!
# DeskCalc.Proofs.Fewest — no decimal with fewer digits rounds to the code, and none with as many is closer

* What lies between two decimals that round to a code rounds to it (`nearestCode_between`).  So if a point of a grid does,
  a neighbour of the value does (`readsBack_neighbour`), and the search needs to try no others.
* `Found code d top`: what is known of the decimal `d` where the search stops.  It rounds to the code, and no decimal of
  the next coarser grid does; the coarsest grid has the spacing `10 ^ top`, the first power of ten above the value.
* Between two decimals of different numbers of digits there is a power of ten on a coarser grid.  So `d` has no more
  digits than any decimal that rounds to the code (`Found.coefficient_lt`), and it is as close to the value as any with
  as many digits (`Found.closer`).
* On the coarsest grid this argument fails, and there is one code of which it matters (`Found.first_closer`).
-/

namespace DeskCalc

namespace Decimal

open Binary64

variable {code n c m k : ℕ} {e : ℤ} {d d' d'' : Decimal}

/-! ## Decimals that round to one code -/

section Convex

theorem nearestCode_congr (h : d.rational = d'.rational) : d.nearestCode = d'.nearestCode :=
  le_antisymm (nearestCode_mono h.le) (nearestCode_mono h.ge)

/-- What lies between two decimals that round to a code rounds to it. -/
theorem nearestCode_between (hd : d.nearestCode = code) (hd'' : d''.nearestCode = code) (h : d.rational ≤ d'.rational)
    (h' : d'.rational ≤ d''.rational) : d'.nearestCode = code :=
  le_antisymm ((nearestCode_mono h').trans_eq hd'') (hd.ge.trans (nearestCode_mono h))

theorem rational_le_rational (h : m ≤ k) (e : ℤ) : rational ⟨m, e⟩ ≤ rational ⟨k, e⟩ :=
  mul_le_mul_of_nonneg_right (Nat.cast_le.mpr h) (zpow_nonneg (by norm_num) e)

theorem rational_lt_rational (h : m < k) (e : ℤ) : rational ⟨m, e⟩ < rational ⟨k, e⟩ :=
  mul_lt_mul_of_pos_right (Nat.cast_lt.mpr h) (zpow_pos (by norm_num) e)

theorem rational_le_of_exponent {e e' : ℤ} (h : e ≤ e') (m : ℕ) : rational ⟨m, e⟩ ≤ rational ⟨m, e'⟩ :=
  mul_le_mul_of_nonneg_left (zpow_le_zpow_right₀ (by norm_num) h) (Nat.cast_nonneg m)

/-- The value of a code, as a decimal. -/
def exact (code : ℕ) : Decimal := ⟨steps code, -(allPlaces : ℤ)⟩

theorem nearestCode_exact (hc : code ≤ infinity) : (exact code).nearestCode = code := by
  have hsteps := nearestCode_of_steps (steps code) 0
  rw [Nat.pow_zero, Nat.mul_one, nearest_steps hc, Nat.cast_zero, zero_sub] at hsteps
  exact hsteps

theorem rational_exact (code : ℕ) : (exact code).rational = magnitude code := by
  have h5 : (0 : ℚ) < 5 ^ allPlaces := pow_pos (by norm_num) _
  have h10 : (10 : ℚ) ^ allPlaces = 2 ^ allPlaces * 5 ^ allPlaces := by
    rw [← mul_pow]
    norm_num
  have hone : (unitsPerOne : ℚ) = 2 ^ allPlaces := by
    rw [unitsPerOne_eq, Nat.cast_pow, Nat.cast_ofNat]
  rw [exact, rational, magnitude, steps, Nat.pow_eq, zpow_neg, zpow_natCast, ← div_eq_mul_inv, Nat.cast_mul, Nat.cast_pow,
    Nat.cast_ofNat, h10, hone, mul_div_mul_right _ _ h5.ne']

end Convex

/-! ## Grids -/

section Grids

/-- A grid point, as a decimal. -/
theorem readsBack_iff_nearestCode : readsBack code n m = true ↔ nearestCode ⟨m, (n : ℤ) - allPlaces⟩ = code := by
  rw [readsBack_iff, nearestCode_of_steps]

/-- Whole numbers of steps and of grid spacings are compared as decimals are. -/
theorem mul_steps_lt_iff (code a b n : ℕ) :
    a * steps code < b * 10 ^ n ↔ (a : ℚ) * magnitude code < b * 10 ^ ((n : ℤ) - allPlaces) := by
  have h10 : (0 : ℚ) < 10 ^ allPlaces := pow_pos (by norm_num) _
  have hmag : magnitude code = (steps code : ℚ) / 10 ^ allPlaces := by
    rw [← rational_exact, exact, rational, zpow_neg, zpow_natCast, div_eq_mul_inv]
  have hspacing : (10 : ℚ) ^ ((n : ℤ) - allPlaces) = 10 ^ n / 10 ^ allPlaces := by
    rw [zpow_sub₀ (by norm_num), zpow_natCast, zpow_natCast]
  rw [hmag, hspacing, ← mul_div_assoc, ← mul_div_assoc, div_lt_div_iff_of_pos_right h10]
  exact_mod_cast Iff.rfl

/-- The point at or below a value. -/
theorem le_div_iff : m ≤ steps code / 10 ^ n ↔ rational ⟨m, (n : ℤ) - allPlaces⟩ ≤ magnitude code := by
  have hlt := mul_steps_lt_iff code 1 m n
  rw [Nat.one_mul, Nat.cast_one, one_mul] at hlt
  rw [← not_lt, Nat.div_lt_iff_lt_mul (Nat.pow_pos (by decide)), hlt, not_lt]
  rfl

theorem lt_succ_div : magnitude code < rational ⟨steps code / 10 ^ n + 1, (n : ℤ) - allPlaces⟩ :=
  not_le.mp (le_div_iff.not.mp (Nat.not_succ_le_self (steps code / 10 ^ n)))

/-- Below the middle of two neighbours. -/
theorem two_mul_steps_lt_iff : 2 * steps code < (2 * m + 1) * 10 ^ n ↔
    magnitude code < (rational ⟨m, (n : ℤ) - allPlaces⟩ + rational ⟨m + 1, (n : ℤ) - allPlaces⟩) / 2 := by
  have hsum : rational ⟨m, (n : ℤ) - allPlaces⟩ + rational ⟨m + 1, (n : ℤ) - allPlaces⟩ =
      ((2 * m + 1 : ℕ) : ℚ) * 10 ^ ((n : ℤ) - allPlaces) := by
    simp only [rational]
    push_cast
    ring
  rw [mul_steps_lt_iff, hsum, lt_div_iff₀ two_pos, mul_comm (magnitude code), Nat.cast_ofNat]

/-- Which of two neighbours is taken. -/
theorem closer?_spec {value spacing below : ℕ} {b₁ b₂ : Bool} (h : closer? value spacing below b₁ b₂ = some c) :
    (b₁ = true → c = below ∨ (c = below + 1 ∧ (2 * below + 1) * spacing ≤ 2 * value)) ∧
      (b₂ = true → c = below + 1 ∨ (c = below ∧ 2 * value < (2 * below + 1) * spacing)) := by
  cases b₁ with
  | false =>
    cases b₂ with
    | false => cases h
    | true => exact ⟨fun h₁ => absurd h₁ (by decide), fun _ => Or.inl (Option.some.inj h).symm⟩
  | true =>
    cases b₂ with
    | false => exact ⟨fun _ => Or.inl (Option.some.inj h).symm, fun h₂ => absurd h₂ (by decide)⟩
    | true =>
      have hc := (Option.some.inj h).symm
      split_ifs at hc with hlt
      · exact ⟨fun _ => Or.inl hc, fun _ => Or.inr ⟨hc, hlt⟩⟩
      · exact ⟨fun _ => Or.inr ⟨hc, Nat.le_of_not_lt hlt⟩, fun _ => Or.inl hc⟩

theorem eq_false_of_closer?_eq_none {value spacing below : ℕ} {b₁ b₂ : Bool}
    (h : closer? value spacing below b₁ b₂ = none) : b₁ = false ∧ b₂ = false := by
  cases b₁ <;> cases b₂
  · exact ⟨rfl, rfl⟩
  · cases h
  · cases h
  · cases h

/-- If a point rounds to the code, the neighbour of the value on its side rounds to it as well. -/
theorem readsBack_neighbour (hc : code ≤ infinity) (h : nearestCode ⟨m, (n : ℤ) - allPlaces⟩ = code) :
    (readsBack code n (steps code / 10 ^ n) = true ∧ m ≤ steps code / 10 ^ n) ∨
      (readsBack code n (steps code / 10 ^ n + 1) = true ∧ steps code / 10 ^ n + 1 ≤ m) := by
  have hexact := nearestCode_exact hc
  rcases Nat.lt_or_ge (steps code / 10 ^ n) m with hlt | hge
  · refine Or.inr ⟨readsBack_iff_nearestCode.mpr (nearestCode_between hexact h ?_ ?_), hlt⟩
    · rw [rational_exact]
      exact lt_succ_div.le
    · exact rational_le_rational hlt _
  · refine Or.inl ⟨readsBack_iff_nearestCode.mpr (nearestCode_between h hexact ?_ ?_), hge⟩
    · exact rational_le_rational hge _
    · rw [rational_exact]
      exact le_div_iff.mp le_rfl

/-- A grid on which nothing is found has no point that rounds to the code. -/
theorem nearestCode_ne_of_gridPoint? (hc : code ≤ infinity) (h : gridPoint? code n = none) (m : ℕ) :
    nearestCode ⟨m, (n : ℤ) - allPlaces⟩ ≠ code := by
  intro hm
  simp only [gridPoint?, Nat.pow_eq] at h
  obtain ⟨hbelow, habove⟩ := eq_false_of_closer?_eq_none h
  rcases readsBack_neighbour hc hm with ⟨hread, -⟩ | ⟨hread, -⟩
  · rw [hbelow] at hread
    cases hread
  · rw [habove] at hread
    cases hread

/-- What is found on a grid is as close to the value as any point of it that rounds to the code. -/
theorem closest_of_gridPoint? (hc : code ≤ infinity) (h : gridPoint? code n = some c)
    (hm : nearestCode ⟨m, (n : ℤ) - allPlaces⟩ = code) :
    |rational ⟨c, (n : ℤ) - allPlaces⟩ - magnitude code| ≤ |rational ⟨m, (n : ℤ) - allPlaces⟩ - magnitude code| := by
  simp only [gridPoint?, Nat.pow_eq] at h
  obtain ⟨hbelow, habove⟩ := closer?_spec h
  have hle : rational ⟨steps code / 10 ^ n, (n : ℤ) - allPlaces⟩ ≤ magnitude code := le_div_iff.mp le_rfl
  have hlt : magnitude code < rational ⟨steps code / 10 ^ n + 1, (n : ℤ) - allPlaces⟩ := lt_succ_div
  rcases readsBack_neighbour hc hm with ⟨hread, hside⟩ | ⟨hread, hside⟩
  · -- on the lower side
    have hfar := rational_le_rational hside ((n : ℤ) - allPlaces)
    refine le_trans ?_ (abs_le_abs_of_nonpos (sub_nonpos.mpr hle) (sub_le_sub_right hfar _))
    rcases hbelow hread with rfl | ⟨rfl, hmiddle⟩
    · exact le_rfl
    · rw [abs_sub_le_abs_sub_iff_middle' (hle.trans_lt hlt), ← not_lt, ← two_mul_steps_lt_iff]
      exact not_lt.mpr hmiddle
  · -- on the upper side
    have hfar := rational_le_rational hside ((n : ℤ) - allPlaces)
    refine le_trans ?_ (abs_le_abs_of_nonneg (sub_nonneg.mpr hlt.le) (sub_le_sub_right hfar _))
    rcases habove hread with rfl | ⟨rfl, hmiddle⟩
    · exact le_rfl
    · rw [abs_sub_le_abs_sub_iff_middle (hle.trans_lt hlt)]
      exact (two_mul_steps_lt_iff.mp hmiddle).le

end Grids

/-! ## The search -/

section Search

/-- Where the search stops: its point is in single steps the value itself, and otherwise one found on a grid; on the
grids that were tried before nothing was found. -/
theorem coarsest_spec (code n : ℕ) :
    (coarsest code n).2 ≤ n ∧ (∀ k, (coarsest code n).2 < k → k ≤ n → gridPoint? code k = none) ∧
      ((coarsest code n = (steps code, 0)) ∨ gridPoint? code (coarsest code n).2 = some (coarsest code n).1) := by
  induction n with
  | zero => exact ⟨le_rfl, fun k hk hk' => absurd hk (Nat.not_lt.mpr hk'), Or.inl rfl⟩
  | succ n ih =>
    cases hpoint : gridPoint? code (n + 1) with
    | none =>
      have hcoarsest : coarsest code (n + 1) = coarsest code n := by
        rw [coarsest, hpoint, Option.map_none, Option.getD_none]
      obtain ⟨hle, hnone, hfound⟩ := ih
      rw [hcoarsest]
      refine ⟨Nat.le_succ_of_le hle, fun k hk hk' => ?_, hfound⟩
      rcases Nat.lt_or_eq_of_le hk' with hlt | rfl
      · exact hnone k hk (Nat.le_of_lt_succ hlt)
      · exact hpoint
    | some c =>
      have hcoarsest : coarsest code (n + 1) = (c, n + 1) := by
        rw [coarsest, hpoint, Option.map_some, Option.getD_some]
      rw [hcoarsest]
      exact ⟨le_rfl, fun k hk hk' => absurd hk (Nat.not_lt.mpr hk'), Or.inr hpoint⟩

/-- What is known of the decimal `d` that is found for a code: it rounds to the code, no decimal on the next coarser grid
does, unless the grid of `d` is the one whose first point is the power of ten above the value, and none on its own grid
that does is closer to the value. -/
structure Found (code : ℕ) (d : Decimal) (top : ℤ) : Prop where
  pos : 0 < code
  finite : code < infinity
  reads : d.nearestCode = code
  above : magnitude code < 10 ^ top
  below : 10 ^ (top - 1) ≤ magnitude code
  le_top : d.exponent ≤ top
  coarser : d.exponent < top → ∀ m, nearestCode ⟨m, d.exponent + 1⟩ ≠ code
  closest : ∀ m, nearestCode ⟨m, d.exponent⟩ = code →
    |d.rational - magnitude code| ≤ |rational ⟨m, d.exponent⟩ - magnitude code|

/-- The digits of a number place it between two powers of ten. -/
theorem toDigits_bounds (hm : 0 < m) :
    10 ^ ((Nat.toDigits 10 m).length - 1) ≤ m ∧ m < 10 ^ (Nat.toDigits 10 m).length := by
  have hlen : 0 < (Nat.toDigits 10 m).length := Nat.length_toDigits_pos
  refine ⟨?_, (Nat.length_toDigits_le_iff (by decide) hlen).mp le_rfl⟩
  rcases Nat.lt_or_ge 1 (Nat.toDigits 10 m).length with hlt | hle
  · rw [← not_lt, ← Nat.length_toDigits_le_iff (by decide) (by omega)]
    omega
  · have hone : (Nat.toDigits 10 m).length - 1 = 0 := by omega
    rw [hone]
    exact hm

theorem steps_pos (h0 : 0 < code) : 0 < steps code := by
  have hunits : units 0 < units code := strictMono_units h0
  rw [steps, Nat.pow_eq]
  exact Nat.mul_pos (Nat.zero_lt_of_lt hunits) (Nat.pow_pos (by decide))

/-- The power of ten above a value, and the one not above it. -/
theorem magnitude_bounds (h0 : 0 < code) :
    magnitude code < 10 ^ (((Nat.toDigits 10 (steps code)).length : ℤ) - allPlaces) ∧
      10 ^ (((Nat.toDigits 10 (steps code)).length : ℤ) - allPlaces - 1) ≤ magnitude code := by
  obtain ⟨hlow, hhigh⟩ := toDigits_bounds (steps_pos h0)
  have hlen : 0 < (Nat.toDigits 10 (steps code)).length := Nat.length_toDigits_pos
  generalize (Nat.toDigits 10 (steps code)).length = len at hlow hhigh hlen ⊢
  have habove := (mul_steps_lt_iff code 1 1 len).mp (by omega)
  have hbelow := (mul_steps_lt_iff code 1 1 (len - 1)).not.mp (by omega)
  have hexp : (len : ℤ) - allPlaces - 1 = ((len - 1 : ℕ) : ℤ) - allPlaces := by omega
  rw [hexp]
  exact ⟨by simpa using habove, by simpa using hbelow⟩

/-- The search finds such a decimal. -/
theorem found_shortest (h0 : 0 < code) (hc : code < infinity) : ∃ top, Found code (shortest code) top := by
  obtain ⟨habove, hbelow⟩ := magnitude_bounds h0
  have hread := nearestCode_shortest hc.le
  obtain ⟨hle, hnone, hfound⟩ := coarsest_spec code (Nat.toDigits 10 (steps code)).length
  rw [shortest] at hread ⊢
  generalize (Nat.toDigits 10 (steps code)).length = len at habove hbelow hread hle hnone hfound ⊢
  generalize hp : coarsest code len = p at hread hle hnone hfound ⊢
  obtain ⟨c, n⟩ := p
  dsimp only at hread hle hnone hfound ⊢
  refine ⟨(len : ℤ) - allPlaces, h0, hc, hread, habove, hbelow, ?_, ?_, ?_⟩
  · show (n : ℤ) - allPlaces ≤ (len : ℤ) - allPlaces
    omega
  · intro hlt m
    have hlt' : (n : ℤ) - allPlaces < (len : ℤ) - allPlaces := hlt
    have hexp : (n : ℤ) - allPlaces + 1 = ((n + 1 : ℕ) : ℤ) - allPlaces := by omega
    show nearestCode ⟨m, (n : ℤ) - allPlaces + 1⟩ ≠ code
    rw [hexp]
    exact nearestCode_ne_of_gridPoint? hc.le (hnone (n + 1) (Nat.lt_succ_self n) (by omega)) m
  · intro m hm
    rcases hfound with hsingle | hpoint
    · obtain ⟨hc', hn⟩ := Prod.mk.inj hsingle
      have hexact : rational ⟨c, (n : ℤ) - allPlaces⟩ = magnitude code := by
        rw [hc', hn, Nat.cast_zero, zero_sub]
        exact rational_exact code
      rw [hexact, sub_self, abs_zero]
      exact abs_nonneg _
    · exact closest_of_gridPoint? hc.le hpoint hm

end Search

/-! ## Fewest digits -/

section Digits

variable {top : ℤ}

/-- The same number on a finer grid. -/
theorem rational_finer (m j : ℕ) (e : ℤ) : rational ⟨m * 10 ^ j, e⟩ = rational ⟨m, e + j⟩ := by
  rw [rational, rational, zpow_add₀ (by norm_num), zpow_natCast]
  push_cast
  ring

theorem rational_ten_pow_succ (j : ℕ) (e : ℤ) : rational ⟨10 ^ j, e + 1⟩ = rational ⟨10 ^ (j + 1), e⟩ :=
  (rational_finer (10 ^ j) 1 e).symm

theorem rational_finer_of_le (d : Decimal) (h : e ≤ d.exponent) :
    rational ⟨d.coefficient * 10 ^ (d.exponent - e).toNat, e⟩ = d.rational := by
  have hexp : e + ((d.exponent - e).toNat : ℤ) = d.exponent := by omega
  rw [rational_finer, hexp]

theorem Found.coefficient_pos (h : Found code d top) (hread : d'.nearestCode = code) : 0 < d'.coefficient := by
  refine Nat.pos_of_ne_zero fun h0 => h.pos.ne ?_
  rw [← hread, nearestCode, if_pos h0]

/-- No decimal with a greater exponent rounds to the code. -/
theorem Found.exponent_le (h : Found code d top) (hlt : d.exponent < top) (hread : d'.nearestCode = code) :
    d'.exponent ≤ d.exponent := by
  by_contra hgt
  refine h.coarser hlt (d'.coefficient * 10 ^ (d'.exponent - (d.exponent + 1)).toNat) ?_
  rw [← hread]
  exact nearestCode_congr (rational_finer_of_le d' (by omega))

/-- On the coarsest grid of all the first point is taken. -/
theorem Found.coefficient_eq_one (h : Found code d top) (htop : d.exponent = top) : d.coefficient = 1 := by
  obtain ⟨c, e⟩ := d
  obtain rfl : e = top := htop
  have hpos : 0 < c := h.coefficient_pos h.reads
  show c = 1
  by_contra hne
  have htwo : 2 ≤ c := by omega
  have hfirst : rational ⟨1, e⟩ = 10 ^ e := by rw [rational, Nat.cast_one, one_mul]
  have hlt : magnitude code < rational ⟨1, e⟩ := hfirst ▸ h.above
  have hfar : rational ⟨1, e⟩ < rational ⟨c, e⟩ := rational_lt_rational htwo e
  have hread : nearestCode ⟨1, e⟩ = code :=
    nearestCode_between (nearestCode_exact h.finite.le) h.reads (by rw [rational_exact]; exact hlt.le) hfar.le
  have hcloser := h.closest 1 hread
  rw [abs_of_pos (sub_pos.mpr hlt), abs_of_pos (sub_pos.mpr (hlt.trans hfar))] at hcloser
  exact absurd hcloser (not_le.mpr (sub_lt_sub_right hfar _))

/-- The coefficient does not end in a zero. -/
theorem Found.not_dvd (h : Found code d top) : ¬10 ∣ d.coefficient := by
  rintro ⟨m, hm⟩
  rcases h.le_top.lt_or_eq with hlt | htop
  · refine h.coarser hlt m ?_
    rw [← h.reads]
    refine nearestCode_congr ?_
    rw [← Nat.cast_one, ← rational_finer m 1 d.exponent, Nat.pow_one, Nat.mul_comm, ← hm]
  · have hone := h.coefficient_eq_one htop
    omega

/-- **Fewest digits**: a decimal that rounds to the code has no smaller number of digits than the one that is found. -/
theorem Found.coefficient_lt (h : Found code d top) (hread : d'.nearestCode = code) (hk : d'.coefficient < 10 ^ k) :
    d.coefficient < 10 ^ k := by
  by_contra hge
  have hpos := h.coefficient_pos hread
  obtain ⟨j, rfl⟩ : ∃ j, k = j + 1 := by
    refine Nat.exists_eq_succ_of_ne_zero ?_
    rintro rfl
    omega
  rcases h.le_top.lt_or_eq with hlt | htop
  · -- a power of ten lies between the two, and it is a point of the next coarser grid
    have hle := h.exponent_le hlt hread
    refine h.coarser hlt (10 ^ j) ?_
    have hpower := rational_ten_pow_succ j d.exponent
    refine nearestCode_between hread h.reads ?_ ?_
    · rw [hpower]
      exact (rational_le_rational hk.le d'.exponent).trans (rational_le_of_exponent hle _)
    · rw [hpower]
      exact rational_le_rational (Nat.le_of_not_lt hge) d.exponent
  · rw [h.coefficient_eq_one htop] at hge
    exact hge (Nat.one_lt_pow (by omega) (by decide))

/-- Multiples of a power of ten and of a unit compared. -/
theorem mul_ten_zpow_le_iff (a b n : ℕ) :
    (a : ℚ) * 10 ^ (-(n : ℤ)) ≤ b / unitsPerOne ↔ a * unitsPerOne ≤ b * 10 ^ n := by
  have h10 : (0 : ℚ) < 10 ^ n := pow_pos (by norm_num) _
  rw [zpow_neg, zpow_natCast, ← div_eq_mul_inv, div_le_div_iff₀ h10 cast_unitsPerOne_pos]
  exact_mod_cast Iff.rfl

theorem magnitude_of_lt (hc : c < 2 ^ 52) : magnitude c = c / unitsPerOne := by
  rw [magnitude, units_of_lt hc]

/-- A power of ten and a smaller number of one digit round to one code only if the code is one of the first. -/
theorem lt_ten_of_nearestCode (hc : code < infinity) (h0 : 0 < code) (hread : nearestCode ⟨1, e⟩ = code)
    (hread' : d'.nearestCode = code) (hle : d'.rational ≤ 9 * 10 ^ (e - 1)) : code < 10 := by
  obtain ⟨b, rfl⟩ := Nat.exists_eq_succ_of_ne_zero h0.ne'
  have hpow : (10 : ℚ) ^ e = 10 ^ (e - 1) * 10 := by
    rw [← zpow_add_one₀ (by norm_num), sub_add_cancel]
  have hup : 10 ^ (e - 1) * 10 ≤ middle (b + 1) := by
    have hfirst := rational_le_middle hc hread.le
    rwa [rational, Nat.cast_one, one_mul, hpow] at hfirst
  have hdown : middle b ≤ 9 * 10 ^ (e - 1) := (middle_le_rational (hread' ▸ Nat.lt_succ_self b)).trans hle
  have hconvex : magnitude (b + 1) + magnitude (b + 1) ≤ magnitude b + magnitude (b + 2) := by
    rw [magnitude, magnitude, magnitude, ← add_div, ← add_div, ← Nat.cast_add, ← Nat.cast_add]
    exact div_le_div_of_nonneg_right (Nat.cast_le.mpr (units_add_units_le b)) cast_unitsPerOne_pos.le
  have hfar : 21 * magnitude (b + 1) ≤ 19 * magnitude (b + 2) := by
    rw [middle] at hup hdown
    linarith
  refine lt_ten_of_mul_units_le ?_
  rw [magnitude, magnitude, ← mul_div_assoc, ← mul_div_assoc, div_le_div_iff_of_pos_right cast_unitsPerOne_pos] at hfar
  exact_mod_cast hfar

/-- Of the first codes, one has a greater power of ten next to it that rounds to it, the code two. -/
theorem Found.top_eq (h : Found code d top) (hread : nearestCode ⟨1, top⟩ = code) (hten : code < 10) : top = -323 := by
  have hvalue : magnitude code = code / unitsPerOne := magnitude_of_lt (by omega)
  have hnext : magnitude (code + 1) = (code + 1 : ℕ) / unitsPerOne := magnitude_of_lt (by omega)
  have hunit := cast_unitsPerOne_pos
  apply le_antisymm
  · by_contra hgt
    have hfirst := rational_le_middle h.finite hread.le
    have hpow : (10 : ℚ) ^ (-322 : ℤ) ≤ 10 ^ top := zpow_le_zpow_right₀ (by norm_num) (by omega)
    have hmiddle : 2 * middle code ≤ 19 / unitsPerOne := by
      rw [middle, mul_div_cancel₀ _ two_ne_zero, hvalue, hnext, ← add_div, ← Nat.cast_add]
      exact div_le_div_of_nonneg_right (mod_cast (by omega)) hunit.le
    rw [rational, Nat.cast_one, one_mul] at hfirst
    refine absurd ((mul_ten_zpow_le_iff 2 19 322).mp ?_) (by decide +kernel)
    simp only [Nat.cast_ofNat]
    linarith
  · by_contra hlt
    have habove := h.above
    have hpow : (10 : ℚ) ^ top ≤ 10 ^ (-324 : ℤ) := zpow_le_zpow_right₀ (by norm_num) (by omega)
    have hunits : (1 : ℚ) / unitsPerOne ≤ code / unitsPerOne := div_le_div_of_nonneg_right (mod_cast h.pos) hunit.le
    have hten := (mul_ten_zpow_le_iff 1 1 324).mpr (by decide +kernel)
    simp only [Nat.cast_one, Nat.cast_ofNat, one_mul] at hten
    linarith

/-- A decimal of one digit below a power of ten, if both round to the code of a value between them, is not closer to the
value: the power of ten is `10 ^ (-323)`, and the value is two units. -/
theorem Found.first_closer (h : Found code d top) (hread : nearestCode ⟨1, top⟩ = code) (hread' : d'.nearestCode = code)
    (hdigit : d'.coefficient < 10) (hlt : d'.exponent < top) :
    |10 ^ top - magnitude code| ≤ |d'.rational - magnitude code| := by
  have hdown : d'.rational ≤ 9 * 10 ^ (top - 1) :=
    (rational_le_rational (Nat.le_of_lt_succ hdigit) d'.exponent).trans (rational_le_of_exponent (by omega) 9)
  obtain rfl : top = -323 := h.top_eq hread (lt_ten_of_nearestCode h.finite h.pos hread hread' hdown)
  obtain rfl : code = 2 := by
    rw [← hread]
    decide +kernel
  have hvalue : magnitude 2 = (2 : ℕ) / unitsPerOne := magnitude_of_lt (by decide)
  have hdown' : d'.rational ≤ 9 * 10 ^ (-324 : ℤ) := hdown
  have hpow : (10 : ℚ) ^ (-323 : ℤ) = 10 ^ (-324 : ℤ) * 10 := by
    rw [← zpow_add_one₀ (by norm_num)]
    rfl
  have hnineteen := (mul_ten_zpow_le_iff 19 4 324).mpr (by decide +kernel)
  have hfour : (4 : ℚ) / unitsPerOne = 2 * (2 / unitsPerOne) := by ring
  simp only [Nat.cast_ofNat] at hnineteen hvalue
  rw [abs_of_pos (sub_pos.mpr h.above), hvalue, abs_sub_comm, le_abs]
  left
  linarith

/-- Only on the coarsest grid of all does a power of ten above the value round to the code. -/
theorem Found.exponent_eq_top (h : Found code d top) (hpower : nearestCode ⟨10 ^ k, d.exponent⟩ = code)
    (hgt : magnitude code < rational ⟨10 ^ k, d.exponent⟩) : d.exponent = top := by
  by_contra hne
  have hlt : d.exponent < top := lt_of_le_of_ne h.le_top hne
  cases k with
  | zero =>
    have hpow : (10 : ℚ) ^ (top - 1) < 10 ^ d.exponent := by
      refine h.below.trans_lt (hgt.trans_eq ?_)
      rw [rational, Nat.pow_zero, Nat.cast_one, one_mul]
    have hexp := (zpow_lt_zpow_iff_right₀ (by norm_num)).mp hpow
    omega
  | succ j =>
    refine h.coarser hlt (10 ^ j) ?_
    rw [← hpower]
    exact nearestCode_congr (rational_ten_pow_succ j d.exponent)

/-- **Closest**: a decimal with as few digits that rounds to the code is not closer to its value. -/
theorem Found.closer (h : Found code d top) (hread : d'.nearestCode = code) (hk : d'.coefficient < 10 ^ (k + 1))
    (hd : 10 ^ k ≤ d.coefficient) : |d.rational - magnitude code| ≤ |d'.rational - magnitude code| := by
  rcases lt_or_ge d'.exponent d.exponent with hlt | hge
  · -- a power of ten on the grid of `d` lies between the two
    have hbefore : d'.rational < rational ⟨10 ^ k, d.exponent⟩ := by
      have hpower := rational_ten_pow_succ k (d.exponent - 1)
      rw [sub_add_cancel] at hpower
      rw [hpower]
      exact (rational_lt_rational hk d'.exponent).trans_le (rational_le_of_exponent (by omega) _)
    have hbehind : rational ⟨10 ^ k, d.exponent⟩ ≤ d.rational := rational_le_rational hd d.exponent
    have hpower := nearestCode_between hread h.reads hbefore.le hbehind
    refine (h.closest _ hpower).trans ?_
    rcases le_or_gt (rational ⟨10 ^ k, d.exponent⟩) (magnitude code) with hle | hgt
    · exact abs_le_abs_of_nonpos (sub_nonpos.mpr hle) (sub_le_sub_right hbefore.le _)
    · -- then it is the first point of the coarsest grid of all
      have htop : d.exponent = top := h.exponent_eq_top hpower hgt
      have hk0 : k = 0 := by
        rw [h.coefficient_eq_one htop] at hd
        by_contra hk0
        exact absurd hd (Nat.not_le.mpr (Nat.one_lt_pow hk0 (by decide)))
      subst hk0
      rw [htop] at hpower hlt ⊢
      have hfirst : rational ⟨10 ^ 0, top⟩ = 10 ^ top := by rw [rational, Nat.pow_zero, Nat.cast_one, one_mul]
      rw [hfirst]
      exact h.first_closer hpower hread hk hlt
  · have hfine := rational_finer_of_le d' hge
    rw [← hfine]
    refine h.closest _ ?_
    rw [← hread]
    exact nearestCode_congr hfine

end Digits

end Decimal

end DeskCalc
