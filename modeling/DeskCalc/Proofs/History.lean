import DeskCalc.Proofs.Event
import DeskCalc.Proofs.Surface

/-!
# DeskCalc.Proofs.History — the bounded history and the log of all evaluations

* `log as`: the lines of all evaluations of a run since the last reset, the latest first, without any bound.
* `history_concat`: an act keeps the history the beginning of the log; `history_after`: so it is after every run.
* A line in it has an expression without blanks at its ends, because trimming twice is trimming once
  (`trimmed_trimmed`).
-/

namespace DeskCalc

namespace Panel

open Text

variable {as : List Act} {line : Line} {e : Evaluation}

/-! ## The log -/

section Log

/-- The lines of the evaluations since the last reset, the latest first. -/
def log (as : List Act) : List Line := (evaluationsSince Event.resets as).filterMap Evaluation.line?

/-- What an act does to the log. -/
theorem log_concat (as : List Act) (a : Act) :
    log (as ++ [a]) = match (initial.after as).event a with
      | .reset => []
      | .evaluation e => e.line?.toList ++ log as
      | .quiet | .clear => log as := by
  rw [log, evaluationsSince_concat]
  cases (initial.after as).event a with
  | quiet => rfl
  | clear => rfl
  | reset => rfl
  | evaluation e => cases h : e.line? <;> simp [Event.resets, Event.evaluation?, log, h]

/-- What an evaluation puts on top of the beginning of a log is the beginning of the longer log. -/
theorem remember_take (lines : List Line) (e : Evaluation) :
    Screen.remember (lines.take historyLimit) e = (e.line?.toList ++ lines).take historyLimit := by
  rw [Screen.remember]
  cases e.line? with
  | none => rfl
  | some line =>
    show (line :: lines.take historyLimit).take historyLimit = (line :: lines).take historyLimit
    simp [historyLimit, List.take_take]

/-- One more act, and the history is still the beginning of the log. -/
theorem history_concat (h : (initial.after as).history = (log as).take historyLimit) (a : Act) :
    (initial.after (as ++ [a])).history = (log (as ++ [a])).take historyLimit := by
  have hstep := congrArg Screen.history ((initial.after as).screen_act a)
  rw [after_append, log_concat]
  show ((initial.after as).act a).screen.history = _
  rw [hstep]
  cases (initial.after as).event a with
  | quiet => exact h
  | clear => exact h
  | reset => rfl
  | evaluation e =>
    show Screen.remember (initial.after as).history e = _
    rw [h, remember_take]

theorem history_after (as : List Act) : (initial.after as).history = (log as).take historyLimit := by
  induction as using List.reverseRecOn with
  | nil => rfl
  | append_singleton as a ih => exact history_concat ih a

end Log

/-! ## Its lines -/

section Lines

/-- What is evaluated has no blanks at its ends. -/
theorem trimmed_expression_of_event {p : Panel} {a : Act} (h : p.event a = .evaluation e) :
    trimmed e.expression = e.expression := by
  have hentry : e.expression = trimmed p.entry := by
    rcases event_eq_evaluation h with ⟨text, steps, -, he⟩ | ⟨text, steps, -, he⟩ | ⟨-, he⟩
    · rw [he]
    · rw [he]
    · rw [he, Evaluation.ofExpression]
  rw [hentry, trimmed_trimmed]

theorem expression_of_mem_log (h : line ∈ log as) :
    line.expression ≠ "" ∧ trimmed line.expression = line.expression := by
  obtain ⟨e, he, hline⟩ := List.mem_filterMap.mp h
  obtain ⟨p, a, -, hevent⟩ := exists_event_of_mem_evaluationsSince he
  unfold Evaluation.line? at hline
  split_ifs at hline with hne
  obtain rfl := Option.some.inj hline
  exact ⟨hne, trimmed_expression_of_event hevent⟩

/-- **The history** is the twenty latest lines of the log, in its order, and every expression in it is neither empty nor
has blanks at its ends. -/
theorem history_eq_take_log (as : List Act) :
    (initial.after as).history = (log as).take 20 ∧ (initial.after as).history.length ≤ 20 ∧
    ∀ line ∈ (initial.after as).history, line.expression ≠ "" ∧ trimmed line.expression = line.expression := by
  have h : (initial.after as).history = (log as).take 20 := history_after as
  rw [h]
  refine ⟨rfl, List.length_take_le 20 _, fun line hline => ?_⟩
  exact expression_of_mem_log ((List.take_subset 20 _) hline)

/-- Two evaluations and a blank one between them. -/
theorem history_eq_take_log_two :
    (log [.setEntry " 1+2 ", .enter, .setEntry " ", .enter, .setEntry "5/0", .click .equals]).take 20 =
      [⟨"5/0", "dépassement numérique (résultat infini ou indéterminé)"⟩, ⟨"1+2", "3"⟩] ∧
    trimmed "1+2" = "1+2" := by
  obtain ⟨hlog, -, hlines⟩ :=
    history_eq_take_log [.setEntry " 1+2 ", .enter, .setEntry " ", .enter, .setEntry "5/0", .click .equals]
  have hhistory : (initial.after [.setEntry " 1+2 ", .enter, .setEntry " ", .enter, .setEntry "5/0",
      .click .equals]).history =
        [⟨"5/0", "dépassement numérique (résultat infini ou indéterminé)"⟩, ⟨"1+2", "3"⟩] := by decide +kernel
  rw [hhistory] at hlog hlines
  exact ⟨hlog.symm, (hlines ⟨"1+2", "3"⟩ (by simp)).2⟩

end Lines

end Panel

end DeskCalc
