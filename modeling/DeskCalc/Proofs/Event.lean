import DeskCalc.Panel.Act
import Mathlib.Data.List.Induction

/-!
# DeskCalc.Proofs.Event — what an act does to the screen

* The screen is the panel without its entry: result, error, steps and history.
* For the screen there are four sorts of acts: quiet ones, which may change the entry, those that clear the outputs,
  those that reset the panel, and evaluations.  `event` names the sort, with what was evaluated and what came out.
* `screen_act`: an act changes the screen by its event alone.
* `evaluationsSince ends as`: the evaluations of a run from the start since the last event with `ends`, the latest
  first.
-/

namespace DeskCalc.Panel

open Text

/-! ## Events -/

/-- An evaluation: the entry without the blanks at its ends, its result or the text of its error, and the steps. -/
structure Evaluation where
  expression : String
  outcome : Except String String
  steps : Steps

/-- What an act is to the screen. -/
inductive Event where
  | quiet
  | clear
  | reset
  | evaluation (e : Evaluation)

namespace Evaluation

/-- The evaluation of an expression. -/
def ofExpression (x : String) : Evaluation where
  expression := x
  outcome := (DeskCalc.evaluate x).mapError Fault.message
  steps :=
    { tokens := (Working.ofEntry x).tokens
      rpn := (Working.ofEntry x).rpn
      fault := match DeskCalc.evaluate x with
        | .ok _ => ""
        | .error f => f.label }

/-- The text shown for an evaluation. -/
def output (e : Evaluation) : String :=
  match e.outcome with
  | .ok text => text
  | .error text => text

/-- The result of an evaluation, if it has one. -/
def result? (e : Evaluation) : Option String := e.outcome.toOption

/-- The text of its error; empty if there is none. -/
def error (e : Evaluation) : String :=
  match e.outcome with
  | .ok _ => ""
  | .error text => text

/-- The line of an evaluation in the history; a blank entry has none. -/
def line? (e : Evaluation) : Option Line := if e.expression = "" then none else some ⟨e.expression, e.output⟩

theorem ofExpression_of_ok {x text : String} (h : DeskCalc.evaluate x = .ok text) :
    ofExpression x = ⟨x, .ok text, ⟨(Working.ofEntry x).tokens, (Working.ofEntry x).rpn, ""⟩⟩ := by
  simp only [ofExpression, h, Except.mapError]

theorem ofExpression_of_error {x : String} {f : Fault} (h : DeskCalc.evaluate x = .error f) :
    ofExpression x = ⟨x, .error f.message, ⟨(Working.ofEntry x).tokens, (Working.ofEntry x).rpn, f.label⟩⟩ := by
  simp only [ofExpression, h, Except.mapError]

end Evaluation

/-- What an act is to the screen of the panel that it finds. -/
def event (p : Panel) : Act → Event
  | .reset | .click .reset => .reset
  | .clearResults | .click .clearResults => .clear
  | .showResult text steps => .evaluation ⟨trimmed p.entry, .ok text, steps⟩
  | .showError text steps => .evaluation ⟨trimmed p.entry, .error text, steps⟩
  | .click .equals => .evaluation (.ofExpression (trimmed p.entry))
  | .enter => if p.wantsFocus then .evaluation (.ofExpression (trimmed p.entry)) else .quiet
  | .setEntry _ | .clearEntry | .erase | .recallLine _ | .idle | .escape | .clickLine _ => .quiet
  | .click .clearEntry | .click .erase | .click (.key _) => .quiet

/-- The acts that are evaluations: a result or an error shown directly, a click on `=`, and Enter in a frame that finds
the wish for focus pending. -/
theorem event_eq_evaluation {p : Panel} {a : Act} {e : Evaluation} (h : p.event a = .evaluation e) :
    (∃ text steps, a = .showResult text steps ∧ e = ⟨trimmed p.entry, .ok text, steps⟩) ∨
    (∃ text steps, a = .showError text steps ∧ e = ⟨trimmed p.entry, .error text, steps⟩) ∨
    ((a = .click .equals ∨ a = .enter ∧ p.wantsFocus = true) ∧ e = .ofExpression (trimmed p.entry)) := by
  cases a with
  | showResult text steps => exact Or.inl ⟨text, steps, rfl, (Event.evaluation.inj h).symm⟩
  | showError text steps => exact Or.inr (Or.inl ⟨text, steps, rfl, (Event.evaluation.inj h).symm⟩)
  | click b =>
    cases b with
    | equals => exact Or.inr (Or.inr ⟨Or.inl rfl, (Event.evaluation.inj h).symm⟩)
    | clearEntry | clearResults | reset | erase => exact nomatch h
    | key k => exact nomatch h
  | enter =>
    rw [event] at h
    split_ifs at h with hfocus
    exact Or.inr (Or.inr ⟨Or.inr ⟨rfl, hfocus⟩, (Event.evaluation.inj h).symm⟩)
  | setEntry _ | reset | clearEntry | clearResults | erase | recallLine _ | idle | escape | clickLine _ =>
    exact nomatch h

/-- The events of a run. -/
def events (p : Panel) : List Act → List Event
  | [] => []
  | a :: as => p.event a :: events (p.act a) as

/-! ## The screen -/

/-- The panel without its entry. -/
structure Screen where
  result : String
  error : String
  steps : Steps
  history : List Line

namespace Screen

/-- The screen at the start. -/
def empty : Screen := ⟨"", "", Steps.none, []⟩

/-- The history with the line of an evaluation on top. -/
def remember (history : List Line) (e : Evaluation) : List Line :=
  match e.line? with
  | none => history
  | some line => (line :: history).take historyLimit

/-- The screen after an event. -/
def take (s : Screen) : Event → Screen
  | .quiet => s
  | .clear => { empty with history := s.history }
  | .reset => empty
  | .evaluation e => ⟨e.result?.getD s.result, e.error, e.steps, remember s.history e⟩

end Screen

/-- The screen of a panel. -/
def screen (p : Panel) : Screen := ⟨p.result, p.error, p.steps, p.history⟩

section Step

variable (p : Panel)

@[simp] theorem screen_drawEntry : p.drawEntry.screen = p.screen := rfl

@[simp] theorem screen_editEntry (f : List Char → List Char) : (p.editEntry f).screen = p.screen := rfl

@[simp] theorem screen_recallLine (n : ℕ) : (p.recallLine n).screen = p.screen := by
  unfold recallLine
  cases p.history[n]? <;> rfl

theorem history_record (outcome : Except String String) (steps : Steps) :
    (p.record (Evaluation.output ⟨trimmed p.entry, outcome, steps⟩)).history =
      Screen.remember p.history ⟨trimmed p.entry, outcome, steps⟩ := by
  unfold record Screen.remember Evaluation.line?
  dsimp only
  split_ifs <;> rfl

/-- Recording an evaluation leaves the rest of the panel alone. -/
theorem result_record (output : String) : (p.record output).result = p.result := by
  unfold record
  dsimp only
  split_ifs <;> rfl

theorem screen_showResult (text : String) (steps : Steps) :
    (p.showResult text steps).screen = p.screen.take (.evaluation ⟨trimmed p.entry, .ok text, steps⟩) := by
  have hhistory := p.history_record (.ok text) steps
  simp only [Evaluation.output] at hhistory
  simp only [screen, showResult, hhistory]
  rfl

theorem screen_showError (text : String) (steps : Steps) :
    (p.showError text steps).screen = p.screen.take (.evaluation ⟨trimmed p.entry, .error text, steps⟩) := by
  have hhistory := p.history_record (.error text) steps
  simp only [Evaluation.output] at hhistory
  simp only [screen, showError, hhistory, result_record]
  rfl

theorem evaluate_of_ok {text : String} (h : DeskCalc.evaluate (trimmed p.entry) = .ok text) :
    p.evaluate = p.showResult text
      ⟨(Working.ofEntry (trimmed p.entry)).tokens, (Working.ofEntry (trimmed p.entry)).rpn, ""⟩ := by
  rw [DeskCalc.evaluate] at h
  unfold evaluate
  simp only [h]

theorem evaluate_of_error {f : Fault} (h : DeskCalc.evaluate (trimmed p.entry) = .error f) :
    p.evaluate = p.showError f.message
      ⟨(Working.ofEntry (trimmed p.entry)).tokens, (Working.ofEntry (trimmed p.entry)).rpn, f.label⟩ := by
  rw [DeskCalc.evaluate] at h
  unfold evaluate
  simp only [h]

theorem screen_evaluate :
    p.evaluate.screen = p.screen.take (.evaluation (.ofExpression (trimmed p.entry))) := by
  cases h : DeskCalc.evaluate (trimmed p.entry) with
  | ok text => rw [p.evaluate_of_ok h, screen_showResult, Evaluation.ofExpression_of_ok h]
  | error f => rw [p.evaluate_of_error h, screen_showError, Evaluation.ofExpression_of_error h]

/-- **An act changes the screen by its event alone.** -/
theorem screen_act (a : Act) : (p.act a).screen = p.screen.take (p.event a) := by
  cases a with
  | setEntry text => rfl
  | reset => rfl
  | clearEntry => rfl
  | clearResults => rfl
  | erase => exact p.screen_editEntry eraseLast
  | recallLine n => exact p.screen_recallLine n
  | showResult text steps => exact p.screen_showResult text steps
  | showError text steps => exact p.screen_showError text steps
  | idle => rfl
  | click b =>
    cases b with
    | clearEntry => rfl
    | clearResults => rfl
    | reset => rfl
    | equals => exact p.drawEntry.screen_evaluate
    | erase => exact p.drawEntry.screen_editEntry eraseLast
    | key k => exact p.drawEntry.screen_editEntry k.insert
  | enter =>
    rw [act, pressEnter_eq, event]
    split_ifs
    · exact p.drawEntry.screen_evaluate
    · rfl
  | escape => rfl
  | clickLine n =>
    rw [act, clickHistory, event]
    split_ifs
    · rw [screen_recallLine, screen_drawEntry, screen_drawEntry, Screen.take]
    · rfl

theorem history_act (a : Act) : (p.act a).history = (p.screen.take (p.event a)).history :=
  congrArg Screen.history (p.screen_act a)

end Step

/-! ## Runs -/

section Runs

theorem events_concat (p : Panel) (as : List Act) (a : Act) :
    p.events (as ++ [a]) = p.events as ++ [(p.after as).event a] := by
  induction as generalizing p with
  | nil => rfl
  | cons b as ih => rw [List.cons_append, events, ih, events, after_cons, List.cons_append]

/-- Every event of a run is the event of an act in the panel that it finds. -/
theorem exists_event {p : Panel} {as : List Act} {ev : Event} (h : ev ∈ p.events as) :
    ∃ q : Panel, ∃ a ∈ as, q.event a = ev := by
  induction as generalizing p with
  | nil => cases h
  | cons a as ih =>
    rcases List.mem_cons.mp h with rfl | h
    · exact ⟨p, a, List.mem_cons_self .., rfl⟩
    · obtain ⟨q, b, hb, hev⟩ := ih h
      exact ⟨q, b, List.mem_cons_of_mem a hb, hev⟩

/-! ## Evaluations since -/

namespace Event

/-- An event after which the history is empty. -/
def resets : Event → Bool
  | .reset => true
  | .quiet | .clear | .evaluation _ => false

/-- An event after which the outputs are empty. -/
def clears : Event → Bool
  | .reset | .clear => true
  | .quiet | .evaluation _ => false

/-- The evaluation that an event is, if it is one. -/
def evaluation? : Event → Option Evaluation
  | .evaluation e => some e
  | .quiet | .clear | .reset => none

end Event

/-- The evaluations of a run from the start since the last event with `ends`, the latest first. -/
def evaluationsSince (ends : Event → Bool) (as : List Act) : List Evaluation :=
  ((initial.events as).reverse.takeWhile fun ev => !ends ev).filterMap Event.evaluation?

variable {ends : Event → Bool} {as : List Act} {a : Act} {e : Evaluation}

theorem evaluationsSince_concat (ends : Event → Bool) (as : List Act) (a : Act) :
    evaluationsSince ends (as ++ [a]) =
      if ends ((initial.after as).event a) then []
      else ((initial.after as).event a).evaluation?.toList ++ evaluationsSince ends as := by
  simp only [evaluationsSince, events_concat, List.reverse_append, List.reverse_singleton, List.singleton_append]
  cases h : ends ((initial.after as).event a) with
  | true => simp [h]
  | false =>
    simp only [List.takeWhile_cons, h]
    cases hev : ((initial.after as).event a).evaluation? <;> simp [hev]

/-- Every evaluation of a run is made by an act of it. -/
theorem exists_event_of_mem_evaluationsSince (h : e ∈ evaluationsSince ends as) :
    ∃ p : Panel, ∃ a ∈ as, p.event a = .evaluation e := by
  obtain ⟨ev, hev, he⟩ := List.mem_filterMap.mp h
  obtain ⟨p, a, ha, rfl⟩ := exists_event (List.mem_reverse.mp ((List.takeWhile_sublist _).subset hev))
  refine ⟨p, a, ha, ?_⟩
  cases hkind : p.event a with
  | evaluation e' =>
    rw [hkind] at he
    rw [Option.some.inj he]
  | quiet => simp [hkind, Event.evaluation?] at he
  | clear => simp [hkind, Event.evaluation?] at he
  | reset => simp [hkind, Event.evaluation?] at he

end Runs

end DeskCalc.Panel
