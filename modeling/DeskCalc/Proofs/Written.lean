import DeskCalc.Proofs.Denotation
import DeskCalc.Proofs.Fewest
import DeskCalc.Proofs.Integer

/-!
# DeskCalc.Proofs.Written — values as they are written

* A number is written without a leading zero (`isWholePart_toDigits`), and a decimal whose coefficient does not end in a
  zero without a trailing one (`exists_shape`); all the digits of its coefficient are significant (`significant_plain`).
* Whole floats are those whose units are whole ones (`isWhole_iff`), and a decimal without places rounds to one
  (`mod_eq_zero_of_nearestCode`).  So a float that is not whole is written with places.
* `text_faithful`: the text of a finite float has the plain form, says whether the float is negative and whether it is
  whole, denotes it exactly if it is, and is read as the same float.
* `text_shortest`: of the numerals that round to a float that is not whole, none has fewer significant digits than its
  text, and none with as many is closer to it.
-/

namespace DeskCalc

open Literal Binary64
open Decimal (allPlaces)

variable {x : Float} {c k n : ℕ} {s : String}

/-! ## Digits without a zero at the end -/

namespace Answer

section Shape

/-- `0`, or digits that do not start with `0`. -/
structure IsWholePart (cs : List Char) : Prop where
  digits : ∀ c ∈ cs, c.isDigit = true
  nonempty : cs ≠ []
  leading : cs.head? = some '0' → cs = ['0']

/-- Nothing, or a point and digits that do not end in `0`. -/
inductive IsFraction : List Char → Prop
  | none : IsFraction []
  | places {cs : List Char} (digits : ∀ c ∈ cs, c.isDigit = true) (nonempty : cs ≠ [])
      (trailing : cs.getLast? ≠ some '0') : IsFraction ('.' :: cs)

theorem head?_toDigits (h : 0 < n) : (Nat.toDigits 10 n).head? ≠ some '0' := by
  induction n using Nat.strong_induction_on with
  | _ n ih =>
    rcases Nat.lt_or_ge n 10 with hlt | hge
    · rw [Nat.toDigits_of_lt_base hlt, List.head?_cons, Ne, Option.some.injEq, Nat.digitChar_eq_zero]
      exact h.ne'
    · rw [Nat.toDigits_of_base_le (by decide) hge, List.head?_append_of_ne_nil _ Nat.toDigits_ne_nil]
      exact ih (n / 10) (by omega) (by omega)

theorem getLast?_toDigits (h : ¬10 ∣ n) : (Nat.toDigits 10 n).getLast? ≠ some '0' := by
  rcases Nat.lt_or_ge n 10 with hlt | hge
  · rw [Nat.toDigits_of_lt_base hlt, List.getLast?_singleton, Ne, Option.some.injEq, Nat.digitChar_eq_zero]
    omega
  · rw [Nat.toDigits_of_base_le (by decide) hge, List.getLast?_concat, Ne, Option.some.injEq, Nat.digitChar_eq_zero]
    omega

theorem isWholePart_toDigits (n : ℕ) : IsWholePart (Nat.toDigits 10 n) := by
  refine ⟨Decimal.isDigit_toDigits, Nat.toDigits_ne_nil, fun h => ?_⟩
  rcases Nat.eq_zero_or_pos n with rfl | hpos
  · rfl
  · exact absurd h (head?_toDigits hpos)

/-- A decimal with places, written in full. -/
theorem exists_shape (h0 : 0 < c) (hlast : ¬10 ∣ c) :
    ∃ whole fraction, Decimal.plain ⟨c, .negSucc k⟩ = whole ++ fraction ∧ IsWholePart whole ∧ IsFraction fraction ∧
      fraction ≠ [] := by
  obtain ⟨whole, places, hplain, hdigits, hlen, hne⟩ := Decimal.plain_split c k
  have hall : ∀ d ∈ whole ++ places, d.isDigit = true := hdigits ▸ Decimal.isDigit_paddedDigits
  obtain ⟨hw, hp⟩ := List.forall_mem_append.mp hall
  have hplaces : places ≠ [] := List.ne_nil_of_length_pos (by omega)
  refine ⟨whole, '.' :: places, hplain, ⟨hw, hne, fun hzero => ?_⟩, .places hp hplaces ?_, List.cons_ne_nil _ _⟩
  · -- only if digits are missing there is a zero before them, and it stands alone before the point
    have hshort : (Nat.toDigits 10 c).length < k + 2 := by
      by_contra hlong
      refine head?_toDigits h0 ?_
      have hpadded : Decimal.paddedDigits (k + 2) c = Nat.toDigits 10 c := by
        rw [Decimal.paddedDigits, Nat.sub_eq_zero_of_le (Nat.le_of_not_lt hlong)]
        rfl
      rw [← hpadded, ← hdigits, List.head?_append_of_ne_nil _ hne, hzero]
    have htotal := congrArg List.length hdigits
    rw [List.length_append, hlen, Decimal.paddedDigits, List.length_append, List.length_replicate] at htotal
    obtain ⟨d, rfl⟩ := List.length_eq_one_iff.mp (show whole.length = 1 by omega)
    rw [List.head?_cons, Option.some.injEq] at hzero
    rw [hzero]
  · have hend : places.getLast? = (Nat.toDigits 10 c).getLast? := by
      rw [← List.getLast?_append_of_ne_nil whole hplaces, hdigits, Decimal.paddedDigits,
        List.getLast?_append_of_ne_nil _ Nat.toDigits_ne_nil]
    rw [hend]
    exact getLast?_toDigits hlast

/-- All digits of the coefficient are significant. -/
theorem significant_plain (h0 : 0 < c) (hlast : ¬10 ∣ c) :
    significant (String.ofList (Decimal.plain ⟨c, .negSucc k⟩)) = Nat.toDigits 10 c := by
  obtain ⟨whole, places, hplain, hdigits, -, -⟩ := Decimal.plain_split c k
  have hall : ∀ d ∈ whole ++ places, d.isDigit = true := hdigits ▸ Decimal.isDigit_paddedDigits
  obtain ⟨hw, hp⟩ := List.forall_mem_append.mp hall
  have hfilter : (whole ++ '.' :: places).filter Char.isDigit = Decimal.paddedDigits (k + 2) c := by
    rw [← hdigits, List.filter_append, List.filter_cons_of_neg (by decide), List.filter_eq_self.mpr hw,
      List.filter_eq_self.mpr hp]
  have hzeros : ∀ d ∈ List.replicate (k + 2 - (Nat.toDigits 10 c).length) '0', (d == '0') = true := by
    intro d hd
    rw [List.eq_of_mem_replicate hd]
    rfl
  have hhead : (Nat.toDigits 10 c).dropWhile (· == '0') = Nat.toDigits 10 c := by
    obtain ⟨d, ds, hds⟩ := List.exists_cons_of_ne_nil (Nat.toDigits_ne_nil (n := c) (b := 10))
    have hd := head?_toDigits h0
    rw [hds, List.head?_cons, Ne, Option.some.injEq] at hd
    rw [hds, List.dropWhile_cons_of_neg (by simpa using hd)]
  rw [significant, String.toList_ofList, hplain, hfilter, Decimal.paddedDigits, List.dropWhile_append_of_pos hzeros,
    hhead, List.rdropWhile_eq_self_iff]
  intro hne hzero
  refine getLast?_toDigits hlast ?_
  rw [List.getLast?_eq_some_getLast hne, eq_of_beq hzero]

/-- A decimal written in full denotes its number. -/
theorem denoted_plain (d : Decimal) : denoted (String.ofList d.plain) = d.rational := by
  rw [denoted_of_isNumeral (Decimal.isNumeral_plain d), String.toList_ofList]
  obtain ⟨c, e⟩ := d
  cases e with
  | ofNat k =>
    rw [Decimal.plain_ofNat, unsigned_digits Decimal.isDigit_toDigits, Nat.ofDigitChars_ten_toDigits, Decimal.rational]
    simp
  | negSucc k =>
    obtain ⟨whole, places, hplain, hdigits, hlen, -⟩ := Decimal.plain_split c k
    have hall : ∀ d ∈ whole ++ places, d.isDigit = true := hdigits ▸ Decimal.isDigit_paddedDigits
    obtain ⟨hw, -⟩ := List.forall_mem_append.mp hall
    have hnatural : Nat.ofDigitChars 10 (Decimal.paddedDigits (k + 2) c) 0 = c := by
      simp only [Decimal.paddedDigits, Nat.ofDigitChars_append, Nat.ofDigitChars_replicate_zero, Nat.mul_zero,
        Nat.ofDigitChars_ten_toDigits]
    rw [hplain, unsigned_point hw, hdigits, hnatural, hlen]
    rfl

end Shape

end Answer

/-! ## Whole floats -/

section Whole

/-- A finite float whose value is an integer. -/
def IsWhole (x : Float) : Prop := ∃ n : ℤ, IsInteger x n

theorem isWhole_iff (hx : x.isFinite = true) : IsWhole x ↔ units (code x) % unitsPerOne = 0 := by
  constructor
  · rintro ⟨n, hn⟩
    rw [hn.code_spec.1]
    exact Nat.mul_mod_left _ _
  · intro hmod
    obtain ⟨m, hm⟩ := Nat.dvd_of_mod_eq_zero hmod
    rw [Nat.mul_comm] at hm
    have hinteger := isInteger_ofCode (isNegative x) (isFinite_iff.mp hx) hm
    rw [ofCode_code] at hinteger
    exact ⟨_, hinteger⟩

/-- From `2 ^ 52` on the floats are whole. -/
theorem mod_eq_zero_of_le (h : 1074 * 2 ^ 52 + 2 ^ 52 ≤ c) : units c % unitsPerOne = 0 := by
  obtain ⟨scale, r, rfl, hr, hscale⟩ := exists_scaled c
  have hle : allPlaces ≤ scale := by
    rw [allPlaces_eq]
    omega
  rw [units_scaled hr.le hscale, unitsPerOne_eq]
  exact Nat.mod_eq_zero_of_dvd ((Nat.pow_dvd_pow 2 hle).mul_left r)

/-- A decimal without places is rounded to a whole value. -/
theorem mod_eq_zero_of_nearestCode (h : Decimal.nearestCode ⟨n, 0⟩ = c) : units c % unitsPerOne = 0 := by
  rcases Nat.le_total n exactBound with hle | hge
  · obtain ⟨c', hc', hunits⟩ := exists_units_eq_integer hle
    obtain rfl : c' = c := (Decimal.nearestCode_of_units hc'.le hunits).symm.trans h
    rw [hunits, Nat.mul_mod_left]
  · -- further up every value is whole
    have hbound : units (1074 * 2 ^ 52 + 2 ^ 53) = exactBound * unitsPerOne := by
      rw [units_scaled le_rfl (Or.inr (by decide)), unitsPerOne_eq, allPlaces_eq, exactBound]
    have hfinite : 1074 * 2 ^ 52 + 2 ^ 53 < infinity := by
      rw [infinity_eq]
      decide
    have hmono : Decimal.nearestCode ⟨exactBound, 0⟩ ≤ Decimal.nearestCode ⟨n, 0⟩ :=
      Decimal.nearestCode_mono (Decimal.rational_le_rational hge 0)
    rw [Decimal.nearestCode_of_units hfinite.le hbound, h] at hmono
    exact mod_eq_zero_of_le (by omega)

/-- The decimal of a float that is not whole has places. -/
theorem exists_found (hc : c < infinity) (hmod : units c % unitsPerOne ≠ 0) :
    ∃ m k top, Answer.decimal c = ⟨m, .negSucc k⟩ ∧ Decimal.Found c ⟨m, .negSucc k⟩ top := by
  have h0 : 0 < c := by
    refine Nat.pos_of_ne_zero ?_
    rintro rfl
    refine hmod ?_
    rw [units_eq_zero_iff.mpr rfl, Nat.zero_mod]
  obtain ⟨top, hfound⟩ := Decimal.found_shortest h0 hc
  have hdecimal : Answer.decimal c = Decimal.shortest c := if_neg hmod
  rw [hdecimal]
  generalize Decimal.shortest c = d at hfound ⊢
  obtain ⟨m, e⟩ := d
  cases e with
  | ofNat k =>
    refine absurd (mod_eq_zero_of_nearestCode (n := m * 10 ^ k) ?_) hmod
    rw [← hfound.reads]
    refine Decimal.nearestCode_congr ?_
    rw [Decimal.rational_finer, zero_add]
    rfl
  | negSucc k => exact ⟨m, k, top, rfl, hfound⟩

end Whole

/-! ## The text of a finite float -/

section Text

open Answer

theorem text_eq (hx : x.isFinite = true) : Answer.text x = (if x < 0 then "-" else "") ++ numeral (code x) := by
  rw [text_of_code_lt (isFinite_iff.mp hx)]
  simp only [lt_zero_iff hx, value_lt_zero_iff]

theorem denoted_text (hx : x.isFinite = true) :
    denoted (Answer.text x) = if x < 0 then -(decimal (code x)).rational else (decimal (code x)).rational := by
  rw [text_eq hx]
  split_ifs with hneg
  · rw [denoted_minus, ← denoted_of_isNumeral (isNumeral_numeral _)]
    exact congrArg _ (denoted_plain _)
  · rw [String.empty_append]
    exact denoted_plain _

/-- A text denotes a number to which its float is nearest. -/
theorem isNearest_text (hx : x.isFinite = true) : IsNearest (denoted (Answer.text x)) x := by
  have hc := isFinite_iff.mp hx
  have hcode := nearestCode_decimal hc.le
  have hbound : (decimal (code x)).rational < bound := by
    rw [← not_le, ← Decimal.nearestCode_eq_infinity_iff, hcode]
    exact hc.ne
  have hnearest := Decimal.isNearest_nearestCode hbound
  rw [hcode] at hnearest
  have hvalue := value_ofCode_false hc
  rw [denoted_text hx]
  split_ifs with hneg
  · have hsign := value_lt_zero_iff.mp ((lt_zero_iff hx).mp hneg)
    refine hnearest.neg.congr hx ?_ ?_
    · rw [value_negated hnearest.finite, hvalue, magnitude_code, abs_of_neg ((lt_zero_iff hx).mp hneg), neg_neg]
    · rw [code_negated hnearest.finite, code_ofCode hc.le]
  · rw [lt_zero_iff hx, not_lt] at hneg
    refine hnearest.congr hx ?_ ?_
    · rw [hvalue, magnitude_code, abs_of_nonneg hneg]
    · rw [code_ofCode hc.le]

/-- Digits before and behind the point. -/
theorem exists_shape_numeral (hc : c < infinity) :
    ∃ whole fraction, (numeral c).toList = whole ++ fraction ∧ IsWholePart whole ∧ IsFraction fraction ∧
      (fraction = [] ↔ units c % unitsPerOne = 0) := by
  by_cases hmod : units c % unitsPerOne = 0
  · have hplain : (decimal c).plain = Nat.toDigits 10 (units c / unitsPerOne) := by
      rw [decimal, if_pos hmod]
      simpa using Decimal.plain_ofNat (units c / unitsPerOne) 0
    refine ⟨_, [], ?_, isWholePart_toDigits (units c / unitsPerOne), .none, iff_of_true rfl hmod⟩
    rw [numeral, String.toList_ofList, hplain, List.append_nil]
  · obtain ⟨m, k, top, hdecimal, hfound⟩ := exists_found hc hmod
    obtain ⟨whole, fraction, hplain, hw, hf, hne⟩ :=
      exists_shape (k := k) (hfound.coefficient_pos hfound.reads) hfound.not_dvd
    refine ⟨whole, fraction, ?_, hw, hf, iff_of_false hne hmod⟩
    rw [numeral, String.toList_ofList, hdecimal, hplain]

/-- A whole float is written with all its digits. -/
theorem denoted_text_of_isWhole (hx : x.isFinite = true) (hwhole : IsWhole x) : denoted (Answer.text x) = value x := by
  have hmod := (isWhole_iff hx).mp hwhole
  have hrational : (decimal (code x)).rational = |value x| := by
    rw [decimal, if_pos hmod, Decimal.rational, zpow_zero, mul_one, ← magnitude_code, magnitude,
      Nat.cast_div (Nat.dvd_of_mod_eq_zero hmod) cast_unitsPerOne_pos.ne']
  rw [denoted_text hx, hrational]
  split_ifs with hneg
  · rw [abs_of_neg ((lt_zero_iff hx).mp hneg), neg_neg]
  · rw [lt_zero_iff hx, not_lt] at hneg
    exact abs_of_nonneg hneg

/-- A text is read as its float, but for the sign of a zero. -/
theorem value?_text (hx : x.isFinite = true) : value? (Answer.text x) = some (if x == 0 then 0 else x) := by
  have hc := isFinite_iff.mp hx
  have hneg := (lt_zero_iff hx).trans value_lt_zero_iff
  have hzero := (beq_zero_iff hx).trans value_eq_zero_iff
  rw [text_eq hx]
  by_cases h0 : code x = 0
  · rw [if_pos (hzero.mpr h0), if_neg fun hlt => (hneg.mp hlt).2 h0, String.empty_append, value?_numeral hc, h0]
    rfl
  · rw [if_neg fun h => h0 (hzero.mp h)]
    have hself := ofCode_code x
    split_ifs with hlt
    · rw [value?_minus_numeral hc]
      rw [(hneg.mp hlt).1] at hself
      rw [hself]
    · rw [String.empty_append, value?_numeral hc]
      rw [Bool.eq_false_iff.mpr fun hsign => hlt (hneg.mpr ⟨hsign, h0⟩)] at hself
      rw [hself]

/-- **The text of a finite float** is an optional minus sign, `0` or digits without a leading zero, and possibly a point
and digits that do not end in a zero.  The sign is there if the float is less than zero, and the point if it is not
whole.  A whole float is what its text denotes, and any other is nearest to it; so the text is read as the float, of
which only the sign of a zero is lost. -/
theorem text_faithful (hx : x.isFinite = true) :
    (∃ whole fraction, (Answer.text x).toList = (if x < 0 then ['-'] else []) ++ whole ++ fraction ∧
      IsWholePart whole ∧ IsFraction fraction) ∧
    ('-' ∈ (Answer.text x).toList ↔ x < 0) ∧
    ('.' ∈ (Answer.text x).toList ↔ ¬IsWhole x) ∧
    (IsWhole x → denoted (Answer.text x) = value x) ∧
    IsNearest (denoted (Answer.text x)) x ∧
    value? (Answer.text x) = some (if x == 0 then 0 else x) := by
  have hc := isFinite_iff.mp hx
  obtain ⟨whole, fraction, hnumeral, hw, hf, hmod⟩ := exists_shape_numeral hc
  have htext : (Answer.text x).toList = (if x < 0 then ['-'] else []) ++ whole ++ fraction := by
    rw [text_eq hx, String.toList_append, hnumeral, List.append_assoc]
    split_ifs <;> rfl
  refine ⟨⟨whole, fraction, htext, hw, hf⟩, ?_, ?_, denoted_text_of_isWhole hx, isNearest_text hx, value?_text hx⟩
  · have hnone : '-' ∉ whole ++ fraction := by
      rw [← hnumeral]
      exact fun hmem => ne_minus_of_isNumeral ((isNumeral_numeral _).numerals _ hmem) rfl
    rw [htext, List.append_assoc, List.mem_append, or_iff_left hnone]
    split_ifs with hneg <;> simp [hneg]
  · have hpoint : '.' ∈ fraction ↔ fraction ≠ [] := by
      cases hf with
      | none => simp
      | places => simp
    have hnone : '.' ∉ (if x < 0 then ['-'] else []) ++ whole := by
      rw [List.mem_append, not_or]
      refine ⟨?_, fun hmem => absurd (hw.digits _ hmem) (by decide)⟩
      split_ifs <;> simp
    rw [isWhole_iff hx, ← hmod, htext, List.mem_append, or_iff_right hnone, hpoint]

/-- The negative float of least magnitude keeps its sign and its places, the negative zero is written `0`. -/
theorem text_faithful_least :
    ((ofCode true 1).isFinite = true ∧ '-' ∈ (Answer.text (ofCode true 1)).toList ∧
      '.' ∈ (Answer.text (ofCode true 1)).toList ∧ value? (Answer.text (ofCode true 1)) = some (ofCode true 1)) ∧
    ((ofCode true 0).isFinite = true ∧ '-' ∉ (Answer.text (ofCode true 0)).toList ∧
      '.' ∉ (Answer.text (ofCode true 0)).toList ∧ value? (Answer.text (ofCode true 0)) = some 0) := by
  have hleast : (ofCode true 1).isFinite = true := by decide +kernel
  have hzero : (ofCode true 0).isFinite = true := by decide +kernel
  obtain ⟨-, hminus, hpoint, -, -, hread⟩ := text_faithful hleast
  obtain ⟨-, hminus', hpoint', -, -, hread'⟩ := text_faithful hzero
  refine ⟨⟨hleast, hminus.mpr (by decide +kernel), hpoint.mpr ?_, hread⟩,
    hzero, hminus'.not.mpr (by decide +kernel), hpoint'.not.mpr ?_, hread'⟩
  · rw [isWhole_iff hleast]
    decide +kernel
  · rw [isWhole_iff hzero, not_not]
    decide +kernel

theorem significant_text (hx : x.isFinite = true) : significant (Answer.text x) = significant (numeral (code x)) := by
  rw [text_eq hx]
  split_ifs
  · exact significant_minus _
  · rw [String.empty_append]

theorem succ_code_lt_of_not_isWhole (hx : x.isFinite = true) (hfrac : ¬IsWhole x) : code x + 1 < infinity := by
  rw [isWhole_iff hx] at hfrac
  have hlt : code x < 1074 * 2 ^ 52 + 2 ^ 52 := by
    by_contra hle
    exact hfrac (mod_eq_zero_of_le (Nat.le_of_not_lt hle))
  rw [infinity_eq]
  omega

/-- A text is as far from its float as its decimal is from the magnitude. -/
theorem abs_decimal_sub (hx : x.isFinite = true) :
    |(decimal (code x)).rational - magnitude (code x)| = |denoted (Answer.text x) - value x| := by
  rw [← (isNearest_text hx).abs.2, denoted_text hx]
  split_ifs
  · rw [abs_neg, abs_of_nonneg (Decimal.rational_nonneg _)]
  · rw [abs_of_nonneg (Decimal.rational_nonneg _)]

/-- A numeral that rounds to a float is, but for its sign, a decimal of its significant digits that rounds to the code. -/
theorem exists_decimal_of_isNearest {e : ℤ} (hs : IsSigned s) (h : IsNearest (denoted s * 10 ^ e) x)
    (hup : code x + 1 < infinity) :
    ∃ d : Decimal, d.nearestCode = code x ∧ d.coefficient < 10 ^ (significant s).length ∧
      |d.rational - magnitude (code x)| = |denoted s * 10 ^ e - value x| := by
  obtain ⟨⟨m, e'⟩, hd, hlt⟩ := hs.exists_significant
  obtain ⟨hnearest, hdist⟩ := h.abs
  have hrational : Decimal.rational ⟨m, e' + e⟩ = |denoted s * 10 ^ e| := by
    rw [Decimal.rational, zpow_add₀ (by norm_num), ← mul_assoc, abs_mul, ← hd, abs_of_pos (zpow_pos (by norm_num) e)]
    rfl
  rw [← hrational] at hnearest hdist
  have hcode : code (ofCode false (code x)) = code x := code_ofCode (isFinite_iff.mp h.finite).le
  refine ⟨⟨m, e' + e⟩, ?_, hlt, hdist⟩
  exact (Decimal.nearestCode_eq_code hnearest (Or.inl (by rwa [hcode]))).trans hcode

/-- **The text of a float that is not whole is the shortest**: no numeral that rounds to the float, with any exponent, has
fewer significant digits, and none that has as many is closer to the float. -/
theorem text_shortest (hx : x.isFinite = true) (hfrac : ¬IsWhole x) :
    IsNearest (denoted (Answer.text x)) x ∧
    ∀ s, IsSigned s → ∀ e : ℤ, IsNearest (denoted s * 10 ^ e) x →
      (significant (Answer.text x)).length ≤ (significant s).length ∧
      ((significant s).length = (significant (Answer.text x)).length →
        |denoted (Answer.text x) - value x| ≤ |denoted s * 10 ^ e - value x|) := by
  refine ⟨isNearest_text hx, fun s hs e hnearest => ?_⟩
  obtain ⟨m, k, top, hdecimal, hfound⟩ := exists_found (isFinite_iff.mp hx) ((isWhole_iff hx).not.mp hfrac)
  obtain ⟨d, hread, hlt, hdist⟩ := exists_decimal_of_isNearest hs hnearest (succ_code_lt_of_not_isWhole hx hfrac)
  have hpos : 0 < m := hfound.coefficient_pos hfound.reads
  have hsignificant : significant (Answer.text x) = Nat.toDigits 10 m := by
    rw [significant_text hx, numeral, hdecimal]
    exact significant_plain hpos hfound.not_dvd
  have hlen : 0 < (Nat.toDigits 10 m).length := Nat.length_toDigits_pos
  rw [hsignificant, ← abs_decimal_sub hx, hdecimal, ← hdist]
  constructor
  · refine (Nat.length_toDigits_le_iff (by decide) ?_).mpr (hfound.coefficient_lt hread hlt)
    have hdigit := hfound.coefficient_pos hread
    refine Nat.pos_of_ne_zero fun hnone => ?_
    rw [hnone] at hlt
    omega
  · intro heq
    refine hfound.closer (k := (Nat.toDigits 10 m).length - 1) hread ?_ (Decimal.toDigits_bounds hpos).1
    rwa [Nat.sub_add_cancel hlen, ← heq]

/-- What is written `0.30000000000000004` needs all of its digits, also where they are written as a whole number with an
exponent. -/
theorem text_shortest_of_sum :
    (ofCode false 0x3FD3333333333334).isFinite = true ∧ ¬IsWhole (ofCode false 0x3FD3333333333334) ∧
    (∀ s, IsSigned s → ∀ e : ℤ, IsNearest (denoted s * 10 ^ e) (ofCode false 0x3FD3333333333334) →
      17 ≤ (significant s).length) ∧
    IsSigned "30000000000000004" ∧
    IsNearest (denoted "30000000000000004" * 10 ^ (-17 : ℤ)) (ofCode false 0x3FD3333333333334) := by
  have hx : (ofCode false 0x3FD3333333333334).isFinite = true := by decide +kernel
  have hfrac : ¬IsWhole (ofCode false 0x3FD3333333333334) := by
    rw [isWhole_iff hx]
    decide +kernel
  have hdigits : (significant (Answer.text (ofCode false 0x3FD3333333333334))).length = 17 := by decide +kernel
  have hdenoted : denoted "30000000000000004" * 10 ^ (-17 : ℤ) =
      denoted (Answer.text (ofCode false 0x3FD3333333333334)) := by
    have hwhole : "30000000000000004" = String.ofList (Decimal.plain ⟨30000000000000004, 0⟩) := by decide +kernel
    have hplaces : Answer.text (ofCode false 0x3FD3333333333334) =
        String.ofList (Decimal.plain ⟨30000000000000004, -17⟩) := by decide +kernel
    rw [hwhole, hplaces, denoted_plain, denoted_plain, Decimal.rational, Decimal.rational, zpow_zero, mul_one]
  obtain ⟨hnearest, hshortest⟩ := text_shortest hx hfrac
  have hsigned : IsSigned "30000000000000004" := Or.inl (by decide)
  refine ⟨hx, hfrac, fun s hs e h => ?_, hsigned, ?_⟩
  · rw [← hdigits]
    exact (hshortest s hs e h).1
  · rw [hdenoted]
    exact hnearest

end Text

end DeskCalc
