import DeskCalc.Proofs.Written

/-!
# DeskCalc.Proofs.LiteralEntry — entries of digits and points

* Such an entry is one token.  The check has nothing against it but two points in a row (`check_of_numerals`), so
  whether the token can be read and what it is rounded to decide (`evaluate_of_numerals`).
* `evaluate_isNumeral`: a numeral overflows from the last middle of the format on, and below it its outcome is the text
  of the float nearest to the number it denotes.
* `evaluate_digits_and_points`: the three outcomes of entries of digits and points.
-/

namespace DeskCalc

open Token Literal Binary64

variable {s : String} {c : Char} {x : Float}

/-! ## One token -/

section Token

theorem Operator.ofChar?_of_isNumeral (h : isNumeral c = true) : Operator.ofChar? c = none := by
  refine Option.eq_none_iff_forall_ne_some.mpr fun o ho => ?_
  rw [Operator.ofChar?_eq_some_iff.mp ho] at h
  cases o <;> exact absurd h (by decide)

section Numerals

variable (hne : s ≠ "") (h : ∀ c ∈ s.toList, isNumeral c = true) (hpoints : ¬['.', '.'] <:+: s.toList)
include hne h hpoints

theorem check_of_numerals : Surface.check s = .ok () := by
  have hnil : s.toList ≠ [] := fun hnil => hne (String.toList_eq_nil_iff.mp hnil)
  refine Surface.check_eq_ok_iff.mpr ⟨?_, ?_, ?_, ?_⟩
  · obtain ⟨c, cs, hcs⟩ := List.exists_cons_of_ne_nil hnil
    have hmem : c ∈ s.toList := hcs ▸ List.mem_cons_self
    have hlexeme : (num s).IsLexeme := ⟨hne, h⟩
    refine ⟨c, ?_, fun o ho => ?_⟩
    · rw [hcs, Text.firstVisible?, List.find?_cons_of_pos (isVisible_of_mem_text hlexeme hmem)]
    · rw [Operator.ofChar?_of_isNumeral (h c hmem)] at ho
      cases ho
  · intro c hc
    exact Operator.ofChar?_of_isNumeral (h c (List.mem_reverse.mp (List.mem_of_find?_eq_some hc)))
  · have hnone : Surface.parenCount s.toList = 0 := by
      refine List.countP_eq_zero.mpr fun c hc hparen => ?_
      have hnumeral := h c hc
      rcases Bool.or_eq_true_iff.mp hparen with he | he
      · exact absurd hnumeral (eq_of_beq he ▸ by decide)
      · exact absurd hnumeral (eq_of_beq he ▸ by decide)
    rw [hnone]
  · -- every other pattern has a character in it that is no numeral
    have hforeign : ∀ p ∈ Surface.barredPatterns, p = ".." ∨ ¬p.toList.all isNumeral = true := by decide
    intro p hp hin
    rcases hforeign p hp with rfl | hforeign
    · exact hpoints hin
    · exact hforeign (List.all_eq_true.mpr fun c hc => h c (hin.subset hc))

/-- Without two points in a row, whether the entry can be read decides, and then its value does. -/
theorem evaluate_of_numerals : evaluate s =
    match value? s with
    | some x => finiteText x
    | none => .error (.unreadableLiteral s) := by
  have hlexeme : (num s).IsLexeme := ⟨hne, h⟩
  have ht : tokenize s = .ok [num s] := tokenize_text hlexeme
  have hr : Rpn.ofTokens [num s] = .ok [num s] := by rfl
  rw [evaluate_of_ofTokens (check_of_numerals hne h hpoints) ht hr, Working.outcomeOf, Rpn.value, Rpn.stackAfter_cons,
    Rpn.push]
  cases value? s with
  | some x => rfl
  | none => rfl

end Numerals

end Token

/-! ## Numerals -/

section Numerals

theorem Literal.IsNumeral.not_infix_points (h : IsNumeral s) : ¬['.', '.'] <:+: s.toList := by
  intro hin
  have hle := hin.sublist.count_le '.'
  have hpoints := h.points
  have htwo : ['.', '.'].count '.' = 2 := by decide
  omega

/-- **A numeral** is an overflow if the number it denotes is not below the last middle of the format.  Otherwise there is
a float nearest to this number, and the text of any such float is the outcome. -/
theorem evaluate_isNumeral (h : IsNumeral s) :
    (evaluate s = .error .overflow ↔ bound ≤ denoted s) ∧
    (denoted s < bound →
      (∃ x, IsNearest (denoted s) x) ∧ ∀ x, IsNearest (denoted s) x → evaluate s = .ok (Answer.text x)) := by
  have hne : s ≠ "" := by
    rintro rfl
    obtain ⟨c, hc, -⟩ := h.digit
    simp at hc
  obtain ⟨d, hd, hvalue⟩ := exists_value? h
  have heval : evaluate s = finiteText (ofCode false d.nearestCode) := by
    rw [evaluate_of_numerals hne h.numerals h.not_infix_points, hvalue]
  have hle : d.nearestCode ≤ infinity := by
    rw [Decimal.nearestCode_eq]
    exact nearest_le_infinity _ _
  rw [← hd, heval, finiteText]
  constructor
  · rw [← Decimal.nearestCode_eq_infinity_iff]
    split_ifs with hfinite
    · rw [isFinite_iff, code_ofCode hle] at hfinite
      exact iff_of_false (fun herror => by cases herror) hfinite.ne
    · rw [isFinite_iff, code_ofCode hle] at hfinite
      exact iff_of_true rfl (le_antisymm hle (Nat.le_of_not_lt hfinite))
  · intro hbound
    refine ⟨⟨_, Decimal.isNearest_nearestCode hbound⟩, fun x hx => ?_⟩
    have hcode := Decimal.nearestCode_eq_code hx (Or.inr hbound)
    have hc : d.nearestCode < infinity := hcode ▸ isFinite_iff.mp hx.finite
    have hsign : ¬x < 0 := by
      rw [lt_zero_iff hx.finite, hx.value_eq d.rational_nonneg]
      exact not_lt.mpr (magnitude_nonneg _)
    rw [if_pos (isFinite_ofCode hc), Answer.text_ofCode_false hc, hcode, text_eq hx.finite, if_neg hsign, String.empty_append]

end Numerals

/-! ## Digits and points -/

section Outcomes

/-- **Entries of digits and points.**  Two points in a row are refused by the check.  Other entries without a digit or
with more than one point cannot be read.  The rest are numerals, which overflow or have the nearest float as result. -/
theorem evaluate_digits_and_points (hne : s ≠ "") (h : ∀ c ∈ s.toList, isNumeral c = true) :
    (['.', '.'] <:+: s.toList → ∃ f, evaluate s = .error f ∧ f.kind = .surface) ∧
    (¬['.', '.'] <:+: s.toList → (∀ c ∈ s.toList, c.isDigit = false) ∨ 2 ≤ s.toList.count '.' →
      ∃ f, evaluate s = .error f ∧ f.kind = .rpn ∧ f.detail = "littéral illisible \"" ++ s ++ "\"") ∧
    ((∃ c ∈ s.toList, c.isDigit = true) → s.toList.count '.' ≤ 1 →
      (evaluate s = .error .overflow ↔ bound ≤ denoted s) ∧
      (denoted s < bound →
        (∃ x, IsNearest (denoted s) x) ∧ ∀ x, IsNearest (denoted s) x → evaluate s = .ok (Answer.text x))) := by
  refine ⟨fun hin => ?_, fun hpoints hbad => ?_, fun hdigit hcount => evaluate_isNumeral ⟨h, hcount, hdigit⟩⟩
  · cases hc : Surface.check s with
    | ok u =>
      obtain ⟨-, -, -, hpatterns⟩ := Surface.check_eq_ok_iff.mp hc
      exact absurd hin (hpatterns ".." (by decide))
    | error f =>
      refine ⟨f, ?_, Surface.kind_of_check hc⟩
      rw [evaluate_eq, Working.tokensOf, hc]
      rfl
  · have hnone : value? s = none := by
      rw [← Option.not_isSome_iff_eq_none, isSome_value?_iff h]
      rintro ⟨-, hcount, c, hc, hdigit⟩
      rcases hbad with hbad | hbad
      · rw [hbad c hc] at hdigit
        cases hdigit
      · omega
    refine ⟨.unreadableLiteral s, ?_, rfl, rfl⟩
    rw [evaluate_of_numerals hne h hpoints, hnone]

/-- Two points in a row, two points apart, and a point in front. -/
theorem evaluate_digits_and_points_cases :
    (∃ f, evaluate "1..2" = .error f ∧ f.kind = .surface) ∧
    (∃ f, evaluate "1.2.3" = .error f ∧ f.kind = .rpn ∧ f.detail = "littéral illisible \"1.2.3\"") ∧
    denoted ".5" < bound ∧ ∃ x, IsNearest (denoted ".5") x ∧ evaluate ".5" = .ok (Answer.text x) := by
  have hnumerals : ∀ s ∈ ["1..2", "1.2.3", ".5"], s ≠ "" ∧ s.toList.all isNumeral = true := by decide +kernel
  simp only [List.forall_mem_cons, List.all_eq_true] at hnumerals
  obtain ⟨⟨hrow, hrow'⟩, ⟨hapart, hapart'⟩, ⟨hhalf, hhalf'⟩, -⟩ := hnumerals
  have hin : ['.', '.'] <:+: "1..2".toList := Surface.occurs_iff.mp (by decide +kernel)
  have hnot : ¬['.', '.'] <:+: "1.2.3".toList := Surface.occurs_iff.not.mp (by decide +kernel)
  have hnumeral : IsNumeral ".5" := by decide +kernel
  obtain ⟨hoverflow, hnearest⟩ := (evaluate_digits_and_points hhalf hhalf').2.2 hnumeral.digit hnumeral.points
  have hlt : denoted ".5" < bound := not_le.mp (hoverflow.not.mp (by decide +kernel))
  obtain ⟨⟨x, hx⟩, hevaluate⟩ := hnearest hlt
  refine ⟨(evaluate_digits_and_points hrow hrow').1 hin, ?_, hlt, x, hx, hevaluate x hx⟩
  exact (evaluate_digits_and_points hapart hapart').2.1 hnot (Or.inr (by decide +kernel))

end Outcomes

end DeskCalc
