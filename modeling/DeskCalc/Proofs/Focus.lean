import DeskCalc.Proofs.Event

/-!
# DeskCalc.Proofs.Focus — when Enter does what `=` does

* `wantsFocus_act`: what every act does to the wish for focus.  An edit of the entry and Enter leave it as it is; a
  frame without a click takes it.
* A frame with Enter is one with a click on `=` if the wish is pending (`act_enter_of_wantsFocus`), and nothing
  happens in it otherwise (`act_enter_of_not_wantsFocus`).
* `enter_eq_equals_iff`: so the first frame drawn after the wish was raised is the only one in which Enter evaluates;
  with an idle frame before it, the entry may be edited, but Enter leaves the panel as it is.
-/

namespace DeskCalc.Panel

open Text

variable {p : Panel} {k : ℕ} {edits : List String}

/-! ## The wish for focus -/

section Wish

theorem wantsFocus_evaluate (p : Panel) : p.evaluate.wantsFocus = true := by
  cases h : DeskCalc.evaluate (trimmed p.entry) with
  | ok text => rw [p.evaluate_of_ok h, showResult]
  | error f => rw [p.evaluate_of_error h, showError]

theorem wantsFocus_recallLine (p : Panel) (n : ℕ) : (p.recallLine n).wantsFocus = true := by
  unfold recallLine
  cases p.history[n]? <;> rfl

/-- Whether the wish for focus is pending after an act. -/
theorem wantsFocus_act (p : Panel) (a : Act) :
    (p.act a).wantsFocus = match a with
      | .setEntry _ | .enter => p.wantsFocus
      | .idle | .escape => false
      | .clickLine n => p.hasLine n
      | .reset | .clearEntry | .clearResults | .erase | .recallLine _ | .showResult _ _ | .showError _ _ | .click _ =>
        true := by
  cases a with
  | setEntry text => rfl
  | reset => rfl
  | clearEntry => rfl
  | clearResults => rfl
  | erase => rfl
  | recallLine n => exact p.wantsFocus_recallLine n
  | showResult text steps => rfl
  | showError text steps => rfl
  | idle => rfl
  | click b =>
    cases b with
    | clearEntry => rfl
    | clearResults => rfl
    | reset => rfl
    | equals => exact p.drawEntry.wantsFocus_evaluate
    | erase => rfl
    | key k => rfl
  | enter =>
    rw [act, pressEnter_eq]
    split_ifs with hfocus
    · exact (p.drawEntry.wantsFocus_evaluate).trans hfocus.symm
    · exact (Bool.eq_false_iff.mpr hfocus).symm
  | escape => rfl
  | clickLine n =>
    rw [act, clickHistory]
    split_ifs with hline
    · exact (wantsFocus_recallLine _ n).trans hline.symm
    · exact (Bool.eq_false_iff.mpr hline).symm

/-- With the wish pending, Enter is `=`. -/
theorem act_enter_of_wantsFocus (h : p.wantsFocus = true) : p.act .enter = p.act (.click .equals) := by
  rw [act, act, pressEnter_eq, if_pos h]
  rfl

/-- Without it, nothing happens. -/
theorem act_enter_of_not_wantsFocus (h : p.wantsFocus = false) : p.act .enter = p := by
  rw [act, pressEnter_eq, if_neg (by simp [h]), drawEntry, ← h]

end Wish

/-! ## Idle frames and edits -/

section Later

/-- The panel after idle frames and then edits of its entry. -/
def later (p : Panel) (k : ℕ) (edits : List String) : Panel :=
  p.after (List.replicate k .idle ++ edits.map .setEntry)

theorem wantsFocus_edits (p : Panel) (edits : List String) :
    (p.after (edits.map .setEntry)).wantsFocus = p.wantsFocus := by
  induction edits generalizing p with
  | nil => rfl
  | cons text edits ih =>
    rw [List.map_cons, after_cons, ih, wantsFocus_act]

theorem wantsFocus_idle (p : Panel) (k : ℕ) :
    (p.after (List.replicate (k + 1) .idle)).wantsFocus = false := by
  rw [List.replicate_succ', after_append, after_cons, after_nil, wantsFocus_act]

/-- One idle frame takes the wish, and edits do not bring it back. -/
theorem wantsFocus_later (p : Panel) (k : ℕ) (edits : List String) :
    (p.later k edits).wantsFocus = if k = 0 then p.wantsFocus else false := by
  rw [later, after_append, wantsFocus_edits]
  cases k with
  | zero => rfl
  | succ k => exact p.wantsFocus_idle k

/-- An evaluation leaves the entry as it is. -/
theorem entry_evaluate (p : Panel) : p.evaluate.entry = p.entry := by
  have hrecord : ∀ output, (p.record output).entry = p.entry := by
    intro output
    unfold record
    dsimp only
    split_ifs <;> rfl
  cases h : DeskCalc.evaluate (trimmed p.entry) with
  | ok text => rw [p.evaluate_of_ok h, showResult, hrecord]
  | error f => rw [p.evaluate_of_error h, showError, hrecord]

/-- **Enter does what `=` does** in a panel that wished for focus exactly if no idle frame came between, or there is
nothing that `=` would change. -/
theorem enter_eq_equals_iff (hp : p.wantsFocus = true) (k : ℕ) (edits : List String) :
    (((p.later k edits).act .enter).entry = ((p.later k edits).act (.click .equals)).entry ∧
      ((p.later k edits).act .enter).screen = ((p.later k edits).act (.click .equals)).screen) ↔
    k = 0 ∨ ((p.later k edits).act (.click .equals)).screen = (p.later k edits).screen := by
  have hfocus := p.wantsFocus_later k edits
  by_cases hk : k = 0
  · rw [if_pos hk, hp] at hfocus
    rw [act_enter_of_wantsFocus hfocus]
    exact iff_of_true ⟨rfl, rfl⟩ (Or.inl hk)
  · rw [if_neg hk] at hfocus
    have hentry : ((p.later k edits).act (.click .equals)).entry = (p.later k edits).entry :=
      (p.later k edits).drawEntry.entry_evaluate
    rw [act_enter_of_not_wantsFocus hfocus, hentry]
    simp only [hk, true_and, false_or, eq_comm]

/-- In the first frame the two agree; two idle frames and an edit later `=` would show a result, and they do not. -/
theorem enter_eq_equals_iff_initial :
    initial.wantsFocus = true ∧
    ((((initial.later 0 ["1+2"]).act .enter).entry = ((initial.later 0 ["1+2"]).act (.click .equals)).entry ∧
      ((initial.later 0 ["1+2"]).act .enter).screen = ((initial.later 0 ["1+2"]).act (.click .equals)).screen) ↔
    (0 = 0 ∨ ((initial.later 0 ["1+2"]).act (.click .equals)).screen = (initial.later 0 ["1+2"]).screen)) ∧
    ((((initial.later 2 ["1+2"]).act .enter).entry = ((initial.later 2 ["1+2"]).act (.click .equals)).entry ∧
      ((initial.later 2 ["1+2"]).act .enter).screen = ((initial.later 2 ["1+2"]).act (.click .equals)).screen) ↔
    (2 = 0 ∨ ((initial.later 2 ["1+2"]).act (.click .equals)).screen = (initial.later 2 ["1+2"]).screen)) ∧
    ((initial.later 2 ["1+2"]).act .enter).screen ≠ ((initial.later 2 ["1+2"]).act (.click .equals)).screen := by
  have hfirst := enter_eq_equals_iff (p := initial) rfl 0 ["1+2"]
  have hlater := enter_eq_equals_iff (p := initial) rfl 2 ["1+2"]
  have hshown : ((initial.later 2 ["1+2"]).act (.click .equals)).screen.result ≠
      (initial.later 2 ["1+2"]).screen.result := by
    decide +kernel
  refine ⟨rfl, hfirst, hlater, fun hsame => ?_⟩
  have hentry : ((initial.later 2 ["1+2"]).act .enter).entry =
      ((initial.later 2 ["1+2"]).act (.click .equals)).entry := by
    decide +kernel
  rcases hlater.mp ⟨hentry, hsame⟩ with hzero | hscreen
  · exact absurd hzero (by decide)
  · exact hshown (congrArg Screen.result hscreen)

/-- After one idle frame, an expression is typed: `=` would show its result, Enter does not. -/
theorem enter_after_idle :
    initial.wantsFocus = true ∧ ((initial.later 1 ["1+2"]).act (.click .equals)).result = "3" ∧
    ((initial.later 1 ["1+2"]).act .enter).result = "" ∧ ((initial.later 1 ["1+2"]).act .enter).history = [] := by
  decide +kernel

end Later

end DeskCalc.Panel
