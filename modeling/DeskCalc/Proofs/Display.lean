import DeskCalc.Proofs.Event

/-!
# DeskCalc.Proofs.Display — the outputs and the evaluations since they were cleared

* `outputs_after`: after any run the error and the steps are those of the last evaluation since the outputs were
  cleared, and the result is that of the last one that had a result.
* Where results and errors come from evaluations only (`Act.isShow`), this makes the outputs a function of the
  expressions that were evaluated (`display_after`).
* The text of a fault and its label are never empty, so the error and the label are there together or not at all.
* `shows_equals`: a click on `=` puts the working of the trimmed entry on display.
-/

namespace DeskCalc

namespace Fault

theorem message_ne_empty (f : Fault) : f.message ≠ "" := by
  unfold message
  intro h
  split at h <;> simp at h

theorem label_ne_empty (f : Fault) : f.label ≠ "" := by
  unfold label
  cases f.kind <;> decide

end Fault

namespace Panel

open Text

variable {as : List Act} {a : Act} {e : Evaluation} {x : String}

/-! ## Outputs -/

section Outputs

/-- The evaluations since the outputs were cleared, the latest first. -/
def sinceCleared (as : List Act) : List Evaluation := evaluationsSince Event.clears as

/-- What an act does to them. -/
theorem sinceCleared_concat (as : List Act) (a : Act) :
    sinceCleared (as ++ [a]) = match (initial.after as).event a with
      | .reset | .clear => []
      | .evaluation e => e :: sinceCleared as
      | .quiet => sinceCleared as := by
  rw [sinceCleared, evaluationsSince_concat]
  cases (initial.after as).event a <;> rfl

/-- The outputs that evaluations leave, the latest evaluation first. -/
structure Outputs (es : List Evaluation) (p : Panel) : Prop where
  result : p.result = (es.findSome? Evaluation.result?).getD ""
  error : p.error = (es.head?.map Evaluation.error).getD ""
  steps : p.steps = (es.head?.map Evaluation.steps).getD Steps.none

/-- One more act, and the outputs are still those of the evaluations since they were cleared. -/
theorem Outputs.concat (h : Outputs (sinceCleared as) (initial.after as)) (a : Act) :
    Outputs (sinceCleared (as ++ [a])) (initial.after (as ++ [a])) := by
  have hstep := (initial.after as).screen_act a
  have hresult := congrArg Screen.result hstep
  have herror := congrArg Screen.error hstep
  have hsteps := congrArg Screen.steps hstep
  rw [after_append, sinceCleared_concat]
  generalize (initial.after as).event a = ev at hresult herror hsteps ⊢
  cases ev with
  | quiet => exact ⟨hresult.trans h.result, herror.trans h.error, hsteps.trans h.steps⟩
  | clear => exact ⟨hresult, herror, hsteps⟩
  | reset => exact ⟨hresult, herror, hsteps⟩
  | evaluation e =>
    refine ⟨hresult.trans ?_, herror, hsteps⟩
    -- the result stays if the evaluation has none
    show e.result?.getD (initial.after as).result = _
    rw [h.result, List.findSome?_cons]
    cases e.result? <;> rfl

/-- **The outputs of a run** are those of its evaluations since they were cleared. -/
theorem outputs_after (as : List Act) : Outputs (sinceCleared as) (initial.after as) := by
  induction as using List.reverseRecOn with
  | nil => exact ⟨rfl, rfl, rfl⟩
  | append_singleton as a ih => exact ih.concat a

end Outputs

/-! ## Displays -/

section Displays

/-- An act that puts a text on display without an evaluation. -/
def Act.isShow : Act → Bool
  | .showResult _ _ | .showError _ _ => true
  | _ => false

/-- The expressions evaluated since the outputs were cleared, the latest first. -/
def evaluated (as : List Act) : List String := (sinceCleared as).map Evaluation.expression

theorem eq_ofExpression_of_event {p : Panel} (ha : a.isShow = false) (h : p.event a = .evaluation e) :
    e = .ofExpression e.expression := by
  rcases event_eq_evaluation h with ⟨text, steps, rfl, -⟩ | ⟨text, steps, rfl, -⟩ | ⟨-, he⟩
  · exact nomatch ha
  · exact nomatch ha
  · have hx : e.expression = trimmed p.entry := congrArg Evaluation.expression he
    rw [hx]
    exact he

theorem sinceCleared_eq_map (h : ∀ a ∈ as, a.isShow = false) : sinceCleared as = (evaluated as).map .ofExpression := by
  rw [evaluated, List.map_map]
  refine ((List.map_id _).symm.trans ?_)
  refine List.map_congr_left fun e he => ?_
  obtain ⟨p, a, ha, hevent⟩ := exists_event_of_mem_evaluationsSince he
  exact eq_ofExpression_of_event (h a ha) hevent

theorem result?_ofExpression (x : String) : (Evaluation.ofExpression x).result? = evaluate? x := by
  rw [evaluate?, Evaluation.result?]
  cases h : DeskCalc.evaluate x with
  | ok text =>
    rw [Evaluation.ofExpression_of_ok h]
    rfl
  | error f =>
    rw [Evaluation.ofExpression_of_error h]
    rfl

/-- A failed evaluation leaves the result in place. -/
theorem result_act_of_error {p : Panel} {f : Fault} (h : p.event a = .evaluation (.ofExpression x))
    (hx : DeskCalc.evaluate x = .error f) : (p.act a).result = p.result := by
  have hstep := congrArg Screen.result (p.screen_act a)
  rw [h] at hstep
  refine hstep.trans ?_
  show (Evaluation.result? _).getD p.result = _
  rw [result?_ofExpression, evaluate?, hx]
  rfl

variable {p : Panel} {xs : List String} {text : String} {f : Fault}

theorem Outputs.result_eq (h : Outputs (xs.map .ofExpression) p) : p.result = (xs.findSome? evaluate?).getD "" := by
  have hcomp : Evaluation.result? ∘ Evaluation.ofExpression = evaluate? := funext result?_ofExpression
  rw [h.result, List.findSome?_map, hcomp]

theorem Outputs.of_ok (h : Outputs ((x :: xs).map .ofExpression) p) (hx : DeskCalc.evaluate x = .ok text) :
    p.error = "" ∧ p.steps.fault = "" := by
  rw [h.error, h.steps, List.map_cons, Evaluation.ofExpression_of_ok hx]
  exact ⟨rfl, rfl⟩

theorem Outputs.of_error (h : Outputs ((x :: xs).map .ofExpression) p) (hx : DeskCalc.evaluate x = .error f) :
    p.error = f.message ∧ p.steps.fault = f.label := by
  rw [h.error, h.steps, List.map_cons, Evaluation.ofExpression_of_error hx]
  exact ⟨rfl, rfl⟩

theorem Outputs.error_eq_empty_iff (h : Outputs (xs.map .ofExpression) p) : p.error = "" ↔ p.steps.fault = "" := by
  cases xs with
  | nil =>
    rw [h.error, h.steps]
    exact Iff.rfl
  | cons x xs =>
    cases hx : DeskCalc.evaluate x with
    | ok text =>
      obtain ⟨herror, hfault⟩ := h.of_ok hx
      exact iff_of_true herror hfault
    | error f =>
      obtain ⟨herror, hfault⟩ := h.of_error hx
      rw [herror, hfault]
      exact iff_of_false f.message_ne_empty f.label_ne_empty

/-- **The display is a function of the evaluations made**: of the expressions evaluated since the outputs were cleared,
the last one has its steps and its fault on display, and the last one with a result has its result there.  So the error
and its label are there together or not at all, and an evaluation that fails leaves the result in place. -/
theorem display_after (h : ∀ a ∈ as, a.isShow = false) :
    (evaluated as = [] → (initial.after as).result = "" ∧ (initial.after as).error = "" ∧
      (initial.after as).steps = ⟨"", "", ""⟩) ∧
    (∀ x xs, evaluated as = x :: xs →
      (initial.after as).steps.tokens = (Working.ofEntry x).tokens ∧
      (initial.after as).steps.rpn = (Working.ofEntry x).rpn ∧
      (∀ text, (Working.ofEntry x).outcome = .ok text →
        (initial.after as).error = "" ∧ (initial.after as).steps.fault = "") ∧
      (∀ f, (Working.ofEntry x).outcome = .error f →
        (initial.after as).error = f.message ∧ (initial.after as).steps.fault = f.label) ∧
      (initial.after as).result = ((x :: xs).findSome? evaluate?).getD "") ∧
    ((initial.after as).error = "" ↔ (initial.after as).steps.fault = "") ∧
    ∀ a x f, (initial.after as).event a = .evaluation (.ofExpression x) → DeskCalc.evaluate x = .error f →
      ((initial.after as).act a).result = (initial.after as).result := by
  have hout := outputs_after as
  rw [sinceCleared_eq_map h] at hout
  refine ⟨?_, ?_, hout.error_eq_empty_iff, fun a x f => result_act_of_error⟩
  · intro hnil
    rw [hnil] at hout
    exact ⟨hout.result, hout.error, hout.steps⟩
  · intro x xs hx
    rw [hx] at hout
    refine ⟨?_, ?_, fun text => hout.of_ok, fun f => hout.of_error, hout.result_eq⟩
    · rw [hout.steps]
      rfl
    · rw [hout.steps]
      rfl

/-- A result and, after it, an overflow, with blanks at the ends of both entries. -/
theorem display_after_overflow :
    (∀ a ∈ [Act.setEntry "\u20032+3 ", .enter, .setEntry " 1/0", .click .equals], a.isShow = false) ∧
    evaluated [.setEntry "\u20032+3 ", .enter, .setEntry " 1/0", .click .equals] = ["1/0", "2+3"] ∧
    (initial.after [.setEntry "\u20032+3 ", .enter, .setEntry " 1/0", .click .equals]).result = "5" ∧
    (initial.after [.setEntry "\u20032+3 ", .enter, .setEntry " 1/0", .click .equals]).error =
      Fault.overflow.message ∧
    (initial.after [.setEntry "\u20032+3 ", .enter, .setEntry " 1/0", .click .equals]).steps.tokens = "1 / 0" ∧
    (initial.after [.setEntry "\u20032+3 ", .enter, .setEntry " 1/0", .click .equals]).steps.fault =
      "dépassement" := by
  have h : ∀ a ∈ [Act.setEntry "\u20032+3 ", .enter, .setEntry " 1/0", .click .equals], a.isShow = false := by
    simp [Act.isShow]
  have hxs : evaluated [Act.setEntry "\u20032+3 ", .enter, .setEntry " 1/0", .click .equals] = ["1/0", "2+3"] := by
    decide +kernel
  obtain ⟨-, hcons, -⟩ := display_after h
  obtain ⟨htokens, -, -, hfault, hresult⟩ := hcons "1/0" ["2+3"] hxs
  obtain ⟨herror, hlabel⟩ := hfault .overflow (by decide +kernel)
  exact ⟨h, hxs, hresult.trans (by decide +kernel), herror, htokens.trans (by decide +kernel), hlabel⟩

end Displays

/-! ## One evaluation -/

section Equals

/-- A working is on display, with its result or with its fault. -/
structure Shows (p : Panel) (w : Working) : Prop where
  tokens : p.steps.tokens = w.tokens
  rpn : p.steps.rpn = w.rpn
  result : ∀ text, w.outcome = .ok text → p.result = text ∧ p.error = "" ∧ p.steps.fault = ""
  fault : ∀ f, w.outcome = .error f → p.error = f.message ∧ p.steps.fault = f.label

theorem shows_of_screen {p : Panel} {s : Screen} {x : String} (h : p.screen = s.take (.evaluation (.ofExpression x))) :
    p.Shows (Working.ofEntry x) := by
  have hresult : p.result = (Evaluation.ofExpression x).result?.getD s.result := congrArg Screen.result h
  have herror : p.error = (Evaluation.ofExpression x).error := congrArg Screen.error h
  have hsteps : p.steps = (Evaluation.ofExpression x).steps := congrArg Screen.steps h
  refine ⟨by rw [hsteps]; rfl, by rw [hsteps]; rfl, ?_, ?_⟩
  · intro text hx
    have hx : DeskCalc.evaluate x = .ok text := hx
    rw [hresult, herror, hsteps, Evaluation.ofExpression_of_ok hx]
    exact ⟨rfl, rfl, rfl⟩
  · intro f hx
    have hx : DeskCalc.evaluate x = .error f := hx
    rw [herror, hsteps, Evaluation.ofExpression_of_error hx]
    exact ⟨rfl, rfl⟩

/-- A click on `=` shows the working of the entry without the blanks at its ends. -/
theorem shows_equals (p : Panel) : (p.act (.click .equals)).Shows (Working.ofEntry (trimmed p.entry)) :=
  shows_of_screen (p.screen_act (.click .equals))

end Equals

end Panel

end DeskCalc
