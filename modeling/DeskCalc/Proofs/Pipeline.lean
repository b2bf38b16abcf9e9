import DeskCalc.Proofs.Layout
import DeskCalc.Working

/-!
# DeskCalc.Proofs.Pipeline — the steps of an evaluation in a row

* `evaluate_eq`: an evaluation is its five steps one after the other, and the first fault is its outcome.
* `HasValue s x`: the entry gets as far as a value, and then the value alone decides about the outcome
  (`HasValue.evaluate_eq`).
* The reverse Polish order of a text is made of lexemes and has no parentheses (`isLexeme_of_ofTokens`,
  `any_isParen_of_ofTokens`), so its own text is read back as it was (`parse_render`).
* `evaluate_by_text`: an entry that passes the check may be evaluated by way of its reverse Polish text.
-/

namespace DeskCalc

open Token

variable {s p r : String} {ts rpn : List Token} {x : Float} {f : Fault}

/-! ## In steps -/

section Steps

theorem tokensOf_of_check (h : Surface.check s = .ok ()) : Working.tokensOf s = tokenize s := by
  rw [Working.tokensOf, h]
  rfl

theorem Working.tokensOf_eq_ok_iff :
    Working.tokensOf s = .ok ts ↔ Surface.check s = .ok () ∧ tokenize s = .ok ts := by
  rw [Working.tokensOf, Fault.bind_eq_ok_iff]
  exact ⟨fun ⟨_, hc, ht⟩ => ⟨hc, ht⟩, fun ⟨hc, ht⟩ => ⟨(), hc, ht⟩⟩

/-- An entry has no tokens because of the check or because of a character. -/
theorem Working.check_or_tokenize_of_tokensOf (h : Working.tokensOf s = .error f) :
    Surface.check s = .error f ∨ tokenize s = .error f := by
  have hsteps : (Surface.check s >>= fun _ => tokenize s) = .error f := h
  rcases Fault.bind_eq_error_iff.mp hsteps with hcheck | ⟨-, -, htokens⟩
  · exact Or.inl hcheck
  · exact Or.inr htokens

/-- An entry that has no tokens is at fault in its surface. -/
theorem Working.kind_of_tokensOf (h : Working.tokensOf s = .error f) : f.kind = .surface := by
  rcases Working.check_or_tokenize_of_tokensOf h with hc | ht
  · exact Surface.kind_of_check hc
  · exact kind_of_tokenize ht

/-- How far an evaluation gets, and what its working has then: no tokens, tokens without an order, or an order. -/
theorem Working.ofEntry_cases (s : String) :
    (∃ f, Working.tokensOf s = .error f ∧ Working.ofEntry s = ⟨"", "", .error f⟩) ∨
    (∃ ts f, Working.tokensOf s = .ok ts ∧ Rpn.ofTokens ts = .error f ∧
      Working.ofEntry s = ⟨render ts, "", .error f⟩) ∨
    (∃ ts rpn, Working.tokensOf s = .ok ts ∧ Rpn.ofTokens ts = .ok rpn ∧
      Working.ofEntry s = ⟨render ts, render rpn, Working.outcomeOf rpn⟩) := by
  cases ht : Working.tokensOf s with
  | error f =>
    refine Or.inl ⟨f, rfl, ?_⟩
    simp only [Working.ofEntry, ht]
  | ok ts =>
    cases hr : Rpn.ofTokens ts with
    | error f =>
      refine Or.inr (Or.inl ⟨ts, f, rfl, hr, ?_⟩)
      simp only [Working.ofEntry, ht, hr]
    | ok rpn =>
      refine Or.inr (Or.inr ⟨ts, rpn, rfl, hr, ?_⟩)
      simp only [Working.ofEntry, ht, hr]

/-- An evaluation, step by step. -/
theorem evaluate_eq (s : String) :
    evaluate s = Working.tokensOf s >>= fun ts => Rpn.ofTokens ts >>= Working.outcomeOf := by
  rw [evaluate, Working.ofEntry]
  cases Working.tokensOf s with
  | error f => rfl
  | ok ts =>
    dsimp only
    show _ = Rpn.ofTokens ts >>= Working.outcomeOf
    cases Rpn.ofTokens ts with
    | error f => rfl
    | ok rpn => rfl

/-- The outcome of an entry that can be put into order. -/
theorem evaluate_of_ofTokens (hc : Surface.check s = .ok ()) (ht : tokenize s = .ok ts)
    (hr : Rpn.ofTokens ts = .ok rpn) : evaluate s = Working.outcomeOf rpn := by
  rw [evaluate_eq, tokensOf_of_check hc, ht]
  show (Rpn.ofTokens ts >>= Working.outcomeOf) = Working.outcomeOf rpn
  rw [hr]
  rfl

theorem finiteText_eq_ok_iff : finiteText x = .ok r ↔ x.isFinite = true ∧ Answer.text x = r := by
  unfold finiteText
  split_ifs with hx
  · simp [hx]
  · simp [hx]

/-- What it takes to have a result. -/
theorem evaluate_eq_ok_iff :
    evaluate s = .ok r ↔ Surface.check s = .ok () ∧ ∃ ts, tokenize s = .ok ts ∧ ∃ rpn, Rpn.ofTokens ts = .ok rpn ∧
      ∃ x, Rpn.value rpn = .ok x ∧ x.isFinite = true ∧ Answer.text x = r := by
  rw [evaluate_eq, Fault.bind_eq_ok_iff]
  simp only [Working.tokensOf, Working.outcomeOf, Fault.bind_eq_ok_iff, finiteText_eq_ok_iff]
  constructor
  · rintro ⟨ts, ⟨⟨⟩, hs, ht⟩, rpn, hr, x, hx⟩
    exact ⟨hs, ts, ht, rpn, hr, x, hx⟩
  · rintro ⟨hs, ts, ht, rpn, hr, x, hx⟩
    exact ⟨ts, ⟨(), hs, ht⟩, rpn, hr, x, hx⟩

/-- The entry passes the check and its tokens have a value. -/
def HasValue (s : String) (x : Float) : Prop :=
  Surface.check s = .ok () ∧ ∃ ts, tokenize s = .ok ts ∧ ∃ rpn, Rpn.ofTokens ts = .ok rpn ∧ Rpn.value rpn = .ok x

/-- The outcome of an entry with a value is the text of its value, if that is finite. -/
theorem HasValue.evaluate_eq (h : HasValue s x) : evaluate s = finiteText x := by
  obtain ⟨hc, ts, ht, rpn, hr, hv⟩ := h
  rw [evaluate_of_ofTokens hc ht hr, Working.outcomeOf, hv]
  rfl

theorem HasValue.isKnown (h : HasValue s x) : ∀ c ∈ s.toList, isKnown c = true := by
  obtain ⟨-, ts, ht, -⟩ := h
  exact (tokenize_eq_ok_iff.mp ht).1

theorem hasValue_of_evaluate (h : evaluate s = .ok r) :
    ∃ x, HasValue s x ∧ x.isFinite = true ∧ Answer.text x = r := by
  obtain ⟨hc, ts, ht, rpn, hr, x, hv, hx, htext⟩ := evaluate_eq_ok_iff.mp h
  exact ⟨x, ⟨hc, ts, ht, rpn, hr, hv⟩, hx, htext⟩

end Steps

/-! ## By way of text -/

section ByText

/-- The order of lexemes is made of lexemes. -/
theorem isLexeme_of_ofTokens (h : Rpn.ofTokens ts = .ok rpn) (hts : ∀ t ∈ ts, t.IsLexeme) : ∀ t ∈ rpn, t.IsLexeme := by
  intro t ht
  have hmem := (Rpn.perm_of_ofTokens h).mem_iff.mp ht
  exact hts t (List.mem_filter.mp hmem).1

theorem any_isParen_of_ofTokens (h : Rpn.ofTokens ts = .ok rpn) : rpn.any isParen = false := by
  rw [List.any_eq_false]
  intro t ht
  rw [Rpn.isParen_of_mem_ofTokens h ht]
  decide

theorem parse_eq_ok (ht : tokenize p = .ok rpn) (h : rpn.any isParen = false) : Rpn.parse p = .ok rpn := by
  simp [Rpn.parse, ht, h, bind, Except.bind, pure, Except.pure]

/-- The text of the order of a text is read back. -/
theorem parse_render (ht : tokenize s = .ok ts) (hr : Rpn.ofTokens ts = .ok rpn) : Rpn.parse (render rpn) = .ok rpn :=
  parse_eq_ok (tokenize_render (isLexeme_of_ofTokens hr (isLexeme_of_tokenize ht))) (any_isParen_of_ofTokens hr)

/-- The value of the text of the order of a text. -/
theorem valueOfText_render (ht : tokenize s = .ok ts) (hr : Rpn.ofTokens ts = .ok rpn) :
    Rpn.valueOfText (render rpn) = Rpn.value rpn := by
  rw [Rpn.valueOfText, parse_render ht hr]
  rfl

theorem ofEntry_eq_ok_iff :
    Rpn.ofEntry s = .ok p ↔ ∃ ts, tokenize s = .ok ts ∧ ∃ rpn, Rpn.ofTokens ts = .ok rpn ∧ render rpn = p := by
  simp only [Rpn.ofEntry, Fault.bind_eq_ok_iff]
  constructor
  · rintro ⟨ts, ht, rpn, hr, hp⟩
    exact ⟨ts, ht, rpn, hr, Except.ok.inj hp⟩
  · rintro ⟨ts, ht, rpn, hr, rfl⟩
    exact ⟨ts, ht, rpn, hr, rfl⟩

/-- **The two routes agree**: an entry that passes the check has the outcome, value or fault, of computing the text
of its reverse Polish order, and that text is always read as the order it was written from. -/
theorem evaluate_by_text (s : String) :
    (Surface.check s = .ok () →
      evaluate s = (do
        let p ← Rpn.ofEntry s
        let x ← Rpn.valueOfText p
        if x.isFinite then .ok (Answer.text x) else .error .overflow)) ∧
    ∀ p, Rpn.ofEntry s = .ok p →
      ∃ ts rpn, tokenize s = .ok ts ∧ Rpn.ofTokens ts = .ok rpn ∧ Rpn.parse p = .ok rpn := by
  constructor
  · intro hs
    rw [evaluate_eq, tokensOf_of_check hs, Rpn.ofEntry]
    cases ht : tokenize s with
    | error f => rfl
    | ok ts =>
      show (Rpn.ofTokens ts >>= Working.outcomeOf) = _
      cases hr : Rpn.ofTokens ts with
      | error f => simp [hr, bind, Except.bind]
      | ok rpn =>
        have hv : Rpn.valueOfText (render rpn) = Rpn.value rpn := by
          rw [Rpn.valueOfText, parse_render ht hr]
          rfl
        simp only [bind, Except.bind, hr, pure, Except.pure, hv, Working.outcomeOf, finiteText]
  · intro p h
    obtain ⟨ts, ht, rpn, hr, rfl⟩ := ofEntry_eq_ok_iff.mp h
    exact ⟨ts, rpn, ht, hr, parse_render ht hr⟩

theorem evaluate_by_text_product :
    (evaluate "(2+3)*4" = (do
      let p ← Rpn.ofEntry "(2+3)*4"
      let x ← Rpn.valueOfText p
      if x.isFinite then .ok (Answer.text x) else .error .overflow)) ∧
    ∃ ts rpn, tokenize "(2+3)*4" = .ok ts ∧ Rpn.ofTokens ts = .ok rpn ∧ Rpn.parse "2 3 + 4 *" = .ok rpn :=
  ⟨(evaluate_by_text "(2+3)*4").1 (by decide +kernel),
    (evaluate_by_text "(2+3)*4").2 "2 3 + 4 *" (by decide +kernel)⟩

end ByText

end DeskCalc
