import DeskCalc.Proofs.Matching
import DeskCalc.Proofs.Pipeline
import DeskCalc.Proofs.Stack

/-!
# DeskCalc.Proofs.Stage — which stage decides about an outcome

* Three stages can end an evaluation: the look at the surface, which gives the tokens, the order, and the value.
* An entry that gets past the surface has tokens (`ne_nil_of_tokensOf`), and their text is not empty.  An order is
  empty for parentheses alone, and then there is no value.  So the texts of the working name the stage (`reached`).
* `DecidedBy`: what the deciding stage says about the outcome.  `existsUnique_decidedBy`: exactly one stage decides, and
  the text of the tokens reads as the entry does.
-/

namespace DeskCalc

open Token Text

variable {s : String} {ts : List Token}

/-! ## Tokens of an entry -/

section Tokens

/-- The check lets nothing pass that has no visible character, so what passes it has tokens. -/
theorem ne_nil_of_tokensOf (h : Working.tokensOf s = .ok ts) : ts ≠ [] := by
  obtain ⟨hc, ht⟩ := Working.tokensOf_eq_ok_iff.mp h
  obtain ⟨⟨c, hfirst, -⟩, -⟩ := Surface.check_eq_ok_iff.mp hc
  have hmem : c ∈ s.toList.filter isVisible :=
    List.mem_filter.mpr ⟨List.mem_of_find?_eq_some hfirst, List.find?_some hfirst⟩
  rw [(tokenize_eq_ok_iff_layout.mp ht).filter_isVisible] at hmem
  rintro rfl
  cases hmem

theorem render_ne_empty_of_tokensOf (h : Working.tokensOf s = .ok ts) : render ts ≠ "" := by
  have ht := (Working.tokensOf_eq_ok_iff.mp h).2
  rw [Ne, render_eq_empty_iff (isLexeme_of_tokenize ht)]
  exact ne_nil_of_tokensOf h

end Tokens

/-! ## Stages -/

/-- The stages of an evaluation, each of which may end it. -/
inductive Stage where
  | surface
  | order
  | value
deriving DecidableEq

namespace Working

section Stages

variable {w : Working} {stage : Stage}

/-- The stage that the texts of a working point to. -/
def reached (w : Working) : Stage :=
  if w.tokens = "" then .surface else if w.rpn = "" then .order else .value

/-- A stage decided about the outcome of the entry `s`, and the working `w` shows it. -/
def DecidedBy (s : String) (w : Working) : Stage → Prop
  | .surface =>
    w.tokens = "" ∧ w.rpn = "" ∧
      ∃ f, w.outcome = .error f ∧ f.kind = .surface ∧ (Surface.check s = .error f ∨ tokenize s = .error f)
  | .order =>
    w.tokens ≠ "" ∧ w.rpn = "" ∧ (∃ f, w.outcome = .error f ∧ f.kind = .rpn) ∧
      ∃ ts, tokenize s = .ok ts ∧ (¬Rpn.Matched ts ∨ ∀ t ∈ ts, t.isParen = true)
  | .value =>
    w.tokens ≠ "" ∧ w.rpn ≠ "" ∧
      ((∃ f, Rpn.valueOfText w.rpn = .error f ∧ f.kind = .rpn ∧ w.outcome = .error f) ∨
        ∃ x, Rpn.valueOfText w.rpn = .ok x ∧
          w.outcome = if x.isFinite then .ok (Answer.text x) else .error .overflow)

/-- No working shows that two stages decided. -/
theorem DecidedBy.eq_reached (h : DecidedBy s w stage) : stage = w.reached := by
  cases stage with
  | surface => simp [Working.reached, h.1]
  | order => simp [Working.reached, h.1, h.2.1]
  | value => simp [Working.reached, h.1, h.2.1]

theorem decidedBy_surface {f : Fault} (ht : tokensOf s = .error f) : DecidedBy s ⟨"", "", .error f⟩ .surface :=
  ⟨rfl, rfl, f, rfl, kind_of_tokensOf ht, check_or_tokenize_of_tokensOf ht⟩

/-- Tokens that cannot be put into order have parentheses that do not match. -/
theorem decidedBy_order {f : Fault} (ht : tokensOf s = .ok ts) (hr : Rpn.ofTokens ts = .error f) :
    DecidedBy s ⟨render ts, "", .error f⟩ .order := by
  have hmatched : ¬Rpn.Matched ts := by
    rw [← Rpn.exists_ofTokens_iff, hr]
    simp
  exact ⟨render_ne_empty_of_tokensOf ht, rfl, ⟨f, rfl, Rpn.kind_of_ofTokens hr⟩, ts, (tokensOf_eq_ok_iff.mp ht).2,
    Or.inl hmatched⟩

/-- Parentheses alone leave nothing to compute. -/
theorem decidedBy_order_of_parens (ht : tokensOf s = .ok ts) (hparens : ∀ t ∈ ts, t.isParen = true) :
    DecidedBy s ⟨render ts, "", outcomeOf []⟩ .order :=
  ⟨render_ne_empty_of_tokensOf ht, rfl, ⟨.noValue, rfl, rfl⟩, ts, (tokensOf_eq_ok_iff.mp ht).2, Or.inr hparens⟩

/-- An order that is not empty is written as a text that has the outcome of the order. -/
theorem decidedBy_value {rpn : List Token} (ht : tokensOf s = .ok ts) (hr : Rpn.ofTokens ts = .ok rpn)
    (hne : rpn ≠ []) : DecidedBy s ⟨render ts, render rpn, outcomeOf rpn⟩ .value := by
  have hcut := (tokensOf_eq_ok_iff.mp ht).2
  have hlex := isLexeme_of_ofTokens hr (isLexeme_of_tokenize hcut)
  refine ⟨render_ne_empty_of_tokensOf ht, fun h0 => hne ((render_eq_empty_iff hlex).mp h0), ?_⟩
  dsimp only
  rw [valueOfText_render hcut hr, outcomeOf]
  cases hv : Rpn.value rpn with
  | error f => exact Or.inl ⟨f, rfl, Rpn.kind_of_value hv, rfl⟩
  | ok x => exact Or.inr ⟨x, rfl, rfl⟩

/-- Some stage decides about every entry. -/
theorem exists_decidedBy (s : String) : ∃ stage, DecidedBy s (ofEntry s) stage := by
  rcases ofEntry_cases s with ⟨f, ht, hw⟩ | ⟨ts, f, ht, hr, hw⟩ | ⟨ts, rpn, ht, hr, hw⟩
  · rw [hw]
    exact ⟨.surface, decidedBy_surface ht⟩
  · rw [hw]
    exact ⟨.order, decidedBy_order ht hr⟩
  · rw [hw]
    by_cases hne : rpn = []
    · obtain rfl := hne
      exact ⟨.order, decidedBy_order_of_parens ht ((Rpn.eq_nil_iff_of_ofTokens hr).mp rfl)⟩
    · exact ⟨.value, decidedBy_value ht hr hne⟩

/-- What is written of the tokens reads as the entry does. -/
theorem tokenize_tokens (h : (ofEntry s).tokens ≠ "") : tokenize (ofEntry s).tokens = tokenize s := by
  have hread : ∀ {ts}, tokensOf s = .ok ts → tokenize (render ts) = tokenize s := by
    intro ts ht
    have hcut := (tokensOf_eq_ok_iff.mp ht).2
    rw [hcut, tokenize_render (isLexeme_of_tokenize hcut)]
  rcases ofEntry_cases s with ⟨f, -, hw⟩ | ⟨ts, f, ht, -, hw⟩ | ⟨ts, rpn, ht, -, hw⟩
  · rw [hw] at h
    exact absurd rfl h
  · rw [hw]
    exact hread ht
  · rw [hw]
    exact hread ht

theorem DecidedBy.tokens_eq_empty_iff (h : DecidedBy s w stage) : w.tokens = "" ↔ stage = .surface := by
  cases stage with
  | surface => exact iff_of_true h.1 rfl
  | order => exact iff_of_false h.1 (by decide)
  | value => exact iff_of_false h.1 (by decide)

/-- Only the surface finds faults of its kind. -/
theorem DecidedBy.surface_fault_iff (h : DecidedBy s w stage) :
    (∃ f, w.outcome = .error f ∧ f.kind = .surface) ↔ stage = .surface := by
  cases stage with
  | surface =>
    obtain ⟨-, -, f, hf, hkind, -⟩ := h
    exact iff_of_true ⟨f, hf, hkind⟩ rfl
  | order =>
    obtain ⟨-, -, ⟨g, hg, hkind⟩, -⟩ := h
    refine iff_of_false ?_ (by decide)
    rintro ⟨f, hf, hsurface⟩
    obtain rfl := Except.error.inj (hg.symm.trans hf)
    exact absurd (hkind.symm.trans hsurface) (by decide)
  | value =>
    obtain ⟨-, -, hvalue⟩ := h
    refine iff_of_false ?_ (by decide)
    rintro ⟨f, hf, hsurface⟩
    rcases hvalue with ⟨g, -, hkind, hg⟩ | ⟨x, -, hx⟩
    · obtain rfl := Except.error.inj (hg.symm.trans hf)
      exact absurd (hkind.symm.trans hsurface) (by decide)
    · rw [hf] at hx
      split_ifs at hx
      obtain rfl := Except.error.inj hx
      exact absurd hsurface (by decide)

/-- **Exactly one stage decides about every entry**, and the working shows which.  Past the surface, the text of the
tokens reads as the entry does, so faults in the surface are those without tokens. -/
theorem existsUnique_decidedBy (s : String) :
    (∃! stage, DecidedBy s (ofEntry s) stage) ∧
    (∀ stage, DecidedBy s (ofEntry s) stage → stage ≠ .surface → tokenize (ofEntry s).tokens = tokenize s) ∧
    ((∃ f, (ofEntry s).outcome = .error f ∧ f.kind = .surface) ↔ (ofEntry s).tokens = "") := by
  obtain ⟨decisive, hdecisive⟩ := exists_decidedBy s
  refine ⟨⟨decisive, hdecisive, fun stage h => h.eq_reached.trans hdecisive.eq_reached.symm⟩, ?_, ?_⟩
  · intro stage h hne
    exact tokenize_tokens fun h0 => hne (h.tokens_eq_empty_iff.mp h0)
  · rw [hdecisive.surface_fault_iff, hdecisive.tokens_eq_empty_iff]

end Stages

end Working

end DeskCalc
