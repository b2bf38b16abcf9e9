import DeskCalc.Proofs.Evaluation
import DeskCalc.Proofs.Matching
import DeskCalc.Proofs.Postorder

/-!
# DeskCalc.Proofs.Acceptance — which entries have a result

Nothing in an evaluation looks at the grammar, and the reverse Polish order forgets where an operator stood.  What is
left is a count: a result needs one literal more than there are operators.

* `balance_of_evaluate`: the tokens of an entry with a result have balance one.
* `spells_iff_operandsApart`: so an entry with a result is a sentence exactly if no operand of it follows another one
  directly.
* `evaluate_unary_minus`: where one does, a misplaced operator may find its operands all the same.
* Where none does, the grammar decides: of these token lists the sentences have a value if their literals have one
  (`exists_value_iff`), and no other list has.  `accepted_iff_sentence`: so every entry that is cut into such tokens
  gets as far as the size of its value, or is at fault in its reverse Polish form.
-/

namespace DeskCalc

open Token Grammar Literal

variable {s r : String} {ts : List Token}

theorem balance_of_evaluate (h : evaluate s = .ok r) (ht : tokenize s = .ok ts) : balance ts = 1 := by
  obtain ⟨-, ts', ht', rpn, hr, x, hx, -⟩ := evaluate_eq_ok_iff.mp h
  obtain rfl : ts' = ts := Except.ok.inj (ht'.symm.trans ht)
  exact (balance_of_ofTokens hr).symm.trans (Rpn.balance_of_value hx)

/-- **Only sentences, but for operands side by side**: the tokens of an entry with a result are a sentence exactly if
none of its operands follows another one directly. -/
theorem spells_iff_operandsApart (h : evaluate s = .ok r) :
    ∃ ts, tokenize s = .ok ts ∧ ((∃ e, Sentence .sum ts e) ↔ OperandsApart ts) := by
  obtain ⟨-, ts, ht, rpn, hr, -⟩ := evaluate_eq_ok_iff.mp h
  refine ⟨ts, ht, fun ⟨e, he⟩ => he.alternates.operandsApart, fun ha => ?_⟩
  have hb : balance ts = 1 - (false.toNat : ℤ) := balance_of_evaluate h ht
  have halt : Alternates false ts := alternates_of_balance (fun hf => absurd hf (by decide)) ha hb
  exact spells_iff.mpr ⟨halt, rpn, hr⟩

theorem spells_iff_operandsApart_product : evaluate "2*(3+4)" = .ok "14" ∧
    ∃ ts, tokenize "2*(3+4)" = .ok ts ∧ ((∃ e, Sentence .sum ts e) ↔ OperandsApart ts) :=
  have h : evaluate "2*(3+4)" = .ok "14" := by decide +kernel
  ⟨h, spells_iff_operandsApart h⟩

/-- An operator at the start of a group takes the operand before the group. -/
theorem evaluate_unary_minus : evaluate "1(-2)" = .ok "-1" ∧
    ¬∃ ts, tokenize "1(-2)" = .ok ts ∧ ∃ e, Sentence .sum ts e := by
  have h : evaluate "1(-2)" = .ok "-1" := by decide +kernel
  refine ⟨h, ?_⟩
  rintro ⟨ts, ht, e, he⟩
  have hts : tokenize "1(-2)" = .ok [num "1", lparen, op .sub, num "2", rparen] := by rfl
  obtain rfl := Except.ok.inj (hts.symm.trans ht)
  exact absurd he.alternates (by simp)

/-! ## Operands apart -/

section Apart

/-- Of the token lists whose operands stand apart, the sentences of literals with a value have one, and no others. -/
theorem exists_value_iff (ha : OperandsApart ts) :
    (∃ rpn x, Rpn.ofTokens ts = .ok rpn ∧ Rpn.value rpn = .ok x) ↔
      Spells ts ∧ ∀ text ∈ literals ts, (Literal.value? text).isSome = true := by
  constructor
  · rintro ⟨rpn, x, hr, hv⟩
    have hb : balance ts = 1 := (balance_of_ofTokens hr).symm.trans (Rpn.balance_of_value hv)
    have halt : Alternates false ts := alternates_of_balance (fun hf => absurd hf (by decide)) ha hb
    refine ⟨spells_iff.mpr ⟨halt, rpn, hr⟩, fun text ht => ?_⟩
    rw [← Rpn.literals_of_ofTokens hr] at ht
    exact Rpn.isSome_of_mem_literals hv ht
  · rintro ⟨⟨e, he⟩, hl⟩
    rw [he.literals_eq] at hl
    obtain ⟨x, hx⟩ := Option.isSome_iff_exists.mp (Expr.isSome_value?_iff.mpr hl)
    exact ⟨e.rpn, x, Rpn.ofTokens_sentence he, Rpn.value_rpn hx⟩

/-- An entry with tokens has a value, or it is at fault in its reverse Polish form. -/
theorem hasValue_or_fault (hc : Surface.check s = .ok ()) (ht : tokenize s = .ok ts) :
    (∃ x, HasValue s x) ∨ ∃ f, evaluate s = .error f ∧ f.kind = .rpn := by
  rcases Working.ofEntry_cases s with ⟨f, hf, -⟩ | ⟨us, f, hus, hr, hw⟩ | ⟨us, rpn, hus, hr, hw⟩
  · rw [tokensOf_of_check hc, ht] at hf
    cases hf
  · exact Or.inr ⟨f, congrArg Working.outcome hw, Rpn.kind_of_ofTokens hr⟩
  · cases hv : Rpn.value rpn with
    | error f =>
      have hout : Working.outcomeOf rpn = .error f := by
        rw [Working.outcomeOf, hv]
        rfl
      exact Or.inr ⟨f, (congrArg Working.outcome hw).trans hout, Rpn.kind_of_value hv⟩
    | ok x => exact Or.inl ⟨x, hc, us, (Working.tokensOf_eq_ok_iff.mp hus).2, rpn, hr, hv⟩

/-- With a value, only its size can be at fault, and without one it is not the size. -/
theorem exists_hasValue_iff_outcome (hc : Surface.check s = .ok ()) (ht : tokenize s = .ok ts) :
    (∃ x, HasValue s x) ↔ (∃ r, evaluate s = .ok r) ∨ evaluate s = .error .overflow := by
  constructor
  · rintro ⟨x, hx⟩
    rw [hx.evaluate_eq, finiteText]
    split_ifs
    · exact Or.inl ⟨_, rfl⟩
    · exact Or.inr rfl
  · intro hout
    rcases hasValue_or_fault hc ht with hx | ⟨f, hf, hkind⟩
    · exact hx
    · rcases hout with ⟨r, hr⟩ | hover
      · rw [hf] at hr
        cases hr
      · obtain rfl := Except.error.inj (hf.symm.trans hover)
        exact absurd hkind (by decide)

/-- Of the entries whose operands stand apart, the sentences of numerals have a value, and no others. -/
theorem exists_hasValue_iff (hc : Surface.check s = .ok ()) (ht : tokenize s = .ok ts) (ha : OperandsApart ts) :
    (∃ x, HasValue s x) ↔ Spells ts ∧ ∀ text, num text ∈ ts → IsNumeral text := by
  have hliterals : (∀ text ∈ literals ts, (Literal.value? text).isSome = true) ↔
      ∀ text, num text ∈ ts → IsNumeral text := by
    refine forall_congr' fun text => ?_
    rw [mem_literals_iff]
    refine imp_congr_right fun hmem => isSome_value?_iff ?_
    exact (isLexeme_of_tokenize ht (num text) hmem).2
  rw [← hliterals, ← exists_value_iff ha]
  constructor
  · rintro ⟨x, -, us, hus, rpn, hr, hv⟩
    obtain rfl := Except.ok.inj (hus.symm.trans ht)
    exact ⟨rpn, x, hr, hv⟩
  · rintro ⟨rpn, x, hr, hv⟩
    exact ⟨x, hc, ts, ht, rpn, hr, hv⟩

/-- **Operands apart, the grammar decides**: an entry that passes the check and is cut into tokens, none of whose
operands follows another one directly, has a result or an overflow exactly if its tokens are a sentence of numerals.
Otherwise its reverse Polish form is at fault, and so it is where an operator has no operand before it: at the start,
after an opening parenthesis, after another operator.  Empty groups make no difference: they leave an operand short. -/
theorem accepted_iff_sentence (hc : Surface.check s = .ok ()) (ht : tokenize s = .ok ts) (ha : OperandsApart ts) :
    ((∃ r, evaluate s = .ok r) ∨ evaluate s = .error .overflow ↔
      (∃ e, Sentence .sum ts e) ∧ ∀ text, num text ∈ ts → IsNumeral text) ∧
    (¬((∃ e, Sentence .sum ts e) ∧ ∀ text, num text ∈ ts → IsNumeral text) →
      ∃ f, evaluate s = .error f ∧ f.kind = .rpn) ∧
    ∀ front o back, ts = front ++ op o :: back → (∀ t ∈ front.getLast?, t = lparen ∨ ∃ p, t = op p) →
      ∃ f, evaluate s = .error f ∧ f.kind = .rpn := by
  have hout := exists_hasValue_iff_outcome hc ht
  have hiff := exists_hasValue_iff hc ht ha
  have hfault : (¬∃ x, HasValue s x) → ∃ f, evaluate s = .error f ∧ f.kind = .rpn :=
    (hasValue_or_fault hc ht).resolve_left
  refine ⟨hout.symm.trans hiff, fun hnot => hfault fun hx => hnot (hiff.mp hx), ?_⟩
  rintro front o back rfl hfront
  refine hfault fun hx => ?_
  obtain ⟨⟨e, he⟩, -⟩ := hiff.mp hx
  obtain ⟨t, hlast, hcloses⟩ := he.alternates.closesOperand_before
  rcases hfront t hlast with rfl | ⟨p, rfl⟩
  · cases hcloses
  · cases hcloses

/-- An entry that is accepted, and one with a minus sign that nothing stands before, two groups deep. -/
theorem accepted_iff_sentence_nested :
    (evaluate "2*(3-.5)" = .ok "5" ∧
      ∃ e, Sentence .sum [num "2", op .mul, lparen, num "3", op .sub, num ".5", rparen] e) ∧
    Surface.check "2*(3+(-1))" = .ok () ∧ ∃ f, evaluate "2*(3+(-1))" = .error f ∧ f.kind = .rpn := by
  constructor
  · have hr : evaluate "2*(3-.5)" = .ok "5" := by decide +kernel
    have ht : tokenize "2*(3-.5)" = .ok [num "2", op .mul, lparen, num "3", op .sub, num ".5", rparen] := rfl
    have ha : OperandsApart [num "2", op .mul, lparen, num "3", op .sub, num ".5", rparen] := by decide
    obtain ⟨hiff, -⟩ := accepted_iff_sentence rfl ht ha
    exact ⟨hr, (hiff.mp (Or.inl ⟨"5", hr⟩)).1⟩
  · have hc : Surface.check "2*(3+(-1))" = .ok () := rfl
    have ht : tokenize "2*(3+(-1))" =
        .ok ([num "2", op .mul, lparen, num "3", op .add, lparen] ++ op .sub :: [num "1", rparen, rparen]) := rfl
    have ha : OperandsApart
        ([num "2", op .mul, lparen, num "3", op .add, lparen] ++ op .sub :: [num "1", rparen, rparen]) := by
      decide
    obtain ⟨-, -, hminus⟩ := accepted_iff_sentence hc ht ha
    exact ⟨hc, hminus _ .sub _ rfl fun t hlast => Or.inl (Option.some.inj hlast).symm⟩

end Apart

end DeskCalc
