import DeskCalc.Proofs.Display
import DeskCalc.Proofs.History

/-!
# DeskCalc.Proofs.Replay — a line of the history may be evaluated again

* Where results and errors come from evaluations only, a line holds its expression and what that expression evaluates
  to (`output_of_mem_history`).  The expression evaluated and the one recorded are both the trimmed entry, and a line
  that is recalled is its own trimmed entry.
* `history_recall_equals`: so recalling a line and evaluating puts the outcome of its expression on top.
* `history_faithful`: after any such run every line is faithful, and a click on it and on `=` repeats it.
-/

namespace DeskCalc.Panel

open Text

variable {as : List Act} {p : Panel} {line : Line} {n : ℕ}

/-! ## Faithful lines -/

section Faithful

theorem output_ofExpression_of_ok {x text : String} (h : DeskCalc.evaluate x = .ok text) :
    (Evaluation.ofExpression x).output = text := by
  rw [Evaluation.ofExpression_of_ok h, Evaluation.output]

theorem output_ofExpression_of_error {x : String} {f : Fault} (h : DeskCalc.evaluate x = .error f) :
    (Evaluation.ofExpression x).output = f.message := by
  rw [Evaluation.ofExpression_of_error h, Evaluation.output]

/-- A line of the log has the output of evaluating its expression. -/
theorem output_of_mem_log (h : ∀ a ∈ as, a.isShow = false) (hline : line ∈ log as) :
    line.output = (Evaluation.ofExpression line.expression).output := by
  obtain ⟨e, he, hrecord⟩ := List.mem_filterMap.mp hline
  obtain ⟨q, a, ha, hevent⟩ := exists_event_of_mem_evaluationsSince he
  have hof : e = .ofExpression e.expression := eq_ofExpression_of_event (h a ha) hevent
  unfold Evaluation.line? at hrecord
  split_ifs at hrecord
  obtain rfl := Option.some.inj hrecord
  exact congrArg Evaluation.output hof

theorem mem_log_of_mem_history (h : line ∈ (initial.after as).history) : line ∈ log as := by
  rw [history_after] at h
  exact List.take_subset historyLimit _ h

theorem output_of_mem_history (h : ∀ a ∈ as, a.isShow = false) (hline : line ∈ (initial.after as).history) :
    line.output = (Evaluation.ofExpression line.expression).output :=
  output_of_mem_log h (mem_log_of_mem_history hline)

end Faithful

/-! ## Evaluating a line again -/

section Recall

theorem entry_clickHistory (h : p.history[n]? = some line) : (p.clickHistory n).entry = line.expression := by
  have hn : p.hasLine n = true := decide_eq_true (List.getElem?_eq_some_iff.mp h).1
  have hline : p.drawEntry.drawEntry.history[n]? = some line := h
  rw [clickHistory, if_pos hn, recallLine, hline]

theorem remember_ofExpression {x : String} (hx : x ≠ "") (history : List Line) :
    Screen.remember history (.ofExpression x) =
      (⟨x, (Evaluation.ofExpression x).output⟩ :: history).take historyLimit := by
  have hline : (Evaluation.ofExpression x).line? = some ⟨x, (Evaluation.ofExpression x).output⟩ := by
    rw [Evaluation.line?]
    exact if_neg hx
  simp only [Screen.remember, hline]

/-- A click on a line and one on `=` put the outcome of its expression on top of the history. -/
theorem history_recall_equals (h : p.history[n]? = some line) (htrim : trimmed line.expression = line.expression)
    (hne : line.expression ≠ "") :
    ((p.act (.clickLine n)).act (.click .equals)).history =
      (⟨line.expression, (Evaluation.ofExpression line.expression).output⟩ :: p.history).take historyLimit := by
  have hentry : trimmed (p.act (.clickLine n)).entry = line.expression := by
    rw [act, entry_clickHistory h, htrim]
  have hkeep : (p.act (.clickLine n)).history = p.history := p.history_act (.clickLine n)
  rw [history_act, event, hentry, Screen.take]
  show Screen.remember (p.act (.clickLine n)).history (Evaluation.ofExpression line.expression) = _
  rw [hkeep, remember_ofExpression hne]

/-- **The history is faithful and can be replayed**: a line holds what its expression evaluates to, so to click on it
and then on `=` puts an equal line on top. -/
theorem history_faithful (h : ∀ a ∈ as, a.isShow = false) :
    (∀ line ∈ (initial.after as).history,
      (∀ text, DeskCalc.evaluate line.expression = .ok text → line.output = text) ∧
      ∀ f, DeskCalc.evaluate line.expression = .error f → line.output = f.message) ∧
    ∀ n line, (initial.after as).history[n]? = some line →
      (initial.after (as ++ [.clickLine n, .click .equals])).history =
        (line :: (initial.after as).history).take 20 := by
  constructor
  · intro line hline
    have hout := output_of_mem_history h hline
    exact ⟨fun text ht => hout.trans (output_ofExpression_of_ok ht),
      fun f hf => hout.trans (output_ofExpression_of_error hf)⟩
  · intro n line hn
    have hline : line ∈ (initial.after as).history := List.mem_of_getElem? hn
    obtain ⟨hne, htrim⟩ := expression_of_mem_log (mem_log_of_mem_history hline)
    have hreplay := history_recall_equals hn htrim hne
    rw [← output_of_mem_history h hline] at hreplay
    rw [after_append, after_cons, after_cons, after_nil]
    exact hreplay

/-- The second line of two, evaluated again. -/
theorem history_faithful_two :
    (∀ a ∈ [Act.setEntry " 2*3 ", .enter, .setEntry "1/0", .click .equals], a.isShow = false) ∧
    (initial.after [.setEntry " 2*3 ", .enter, .setEntry "1/0", .click .equals]).history[1]? = some ⟨"2*3", "6"⟩ ∧
    (initial.after ([.setEntry " 2*3 ", .enter, .setEntry "1/0", .click .equals] ++
        [.clickLine 1, .click .equals])).history =
      (⟨"2*3", "6"⟩ :: (initial.after [.setEntry " 2*3 ", .enter, .setEntry "1/0", .click .equals]).history).take 20 := by
  have h : ∀ a ∈ [Act.setEntry " 2*3 ", .enter, .setEntry "1/0", .click .equals], a.isShow = false := by
    simp [Act.isShow]
  have hline : (initial.after [.setEntry " 2*3 ", .enter, .setEntry "1/0", .click .equals]).history[1]? =
      some ⟨"2*3", "6"⟩ := by decide +kernel
  exact ⟨h, hline, (history_faithful h).2 1 ⟨"2*3", "6"⟩ hline⟩

end Recall

end DeskCalc.Panel
