import DeskCalc.Panel.Drawing
import Mathlib.Tactic.SplitIfs

/-!
# DeskCalc.Proofs.Drawing — what can be read off a frame

* The texts of a frame carry no mark of what they are: the error has no caption and is not always there, and the
  history has as many texts as it needs.  Any text may be on display, a caption or the placeholder included.
* Three places behind the keyboard stands a caption, and which one it is tells whether there is an error
  (`caption_of_texts`).  From there on everything has its place.
* `texts_eq_iff`: so frames with the same texts show the same error, result, steps and history.
-/

namespace DeskCalc.Panel

variable {p q : Panel} {lines lines' : List Line}

/-! ## The parts of a frame -/

section Parts

/-- The error can be read off its label, and off the absence of a label. -/
theorem errorTexts_eq_iff : p.errorTexts = q.errorTexts ↔ p.error = q.error := by
  unfold errorTexts
  constructor
  · intro h
    split_ifs at h with hp hq hq
    · rw [hp, hq]
    · exact (List.cons.inj h).1
  · intro h
    rw [h]

theorem length_errorTexts (p : Panel) : p.errorTexts.length = if p.error = "" then 0 else 1 := by
  unfold errorTexts
  split_ifs
  · rfl
  · rfl

theorem length_resultTexts (p : Panel) : p.resultTexts.length = 9 := rfl

theorem resultTexts_eq_iff : p.resultTexts = q.resultTexts ↔ p.result = q.result ∧ p.steps = q.steps := by
  obtain ⟨-, result, -, ⟨tokens, rpn, fault⟩, -, -⟩ := p
  obtain ⟨-, result', -, ⟨tokens', rpn', fault'⟩, -, -⟩ := q
  simp [resultTexts]

/-- The texts of a line of the history. -/
def lineTexts (line : Line) : List String := [line.expression, "= " ++ line.output]

theorem lineTexts_inj {line line' : Line} (h : lineTexts line = lineTexts line') : line = line' := by
  obtain ⟨expression, output⟩ := line
  obtain ⟨expression', output'⟩ := line'
  simpa [lineTexts] using h

/-- Lines take two texts each, so a row of texts can be cut into lines in one way only. -/
theorem flatMap_lineTexts_inj (h : lines.flatMap lineTexts = lines'.flatMap lineTexts) : lines = lines' := by
  induction lines generalizing lines' with
  | nil =>
    cases lines' with
    | nil => rfl
    | cons line' lines' => simp [lineTexts] at h
  | cons line lines ih =>
    cases lines' with
    | nil => simp [lineTexts] at h
    | cons line' lines' =>
      rw [List.flatMap_cons, List.flatMap_cons] at h
      obtain ⟨hline, hlines⟩ := List.append_inj h rfl
      rw [lineTexts_inj hline, ih hlines]

/-- Lines never take one text only. -/
theorem placeholder_ne_lines (lines : List Line) : ["(vide)"] ≠ lines.flatMap lineTexts := by
  cases lines with
  | nil => simp
  | cons line lines => simp [lineTexts]

theorem historyTexts_eq (p : Panel) :
    p.historyTexts = "Historique" :: if p.history = [] then ["(vide)"] else p.history.flatMap lineTexts := rfl

/-- The history can be read off its texts, with the placeholder for no lines. -/
theorem historyTexts_eq_iff : p.historyTexts = q.historyTexts ↔ p.history = q.history := by
  rw [historyTexts_eq, historyTexts_eq]
  constructor
  · intro h
    have h := (List.cons.inj h).2
    split_ifs at h with hp hq hq
    · rw [hp, hq]
    · exact absurd h (placeholder_ne_lines _)
    · exact absurd h.symm (placeholder_ne_lines _)
    · exact flatMap_lineTexts_inj h
  · intro h
    rw [h]

end Parts

/-! ## Frames -/

section Frames

theorem texts_eq (p : Panel) : p.texts = keyboardTexts ++ (p.errorTexts ++ (p.resultTexts ++ p.historyTexts)) := by
  simp [texts]

/-- **The caption that tells an error**: an error puts everything behind it back by one place. -/
theorem caption_of_texts (p : Panel) :
    p.texts[keyboardTexts.length + 3]? = some (if p.error = "" then "Jetons :" else "Démarche") := by
  rw [texts_eq, List.getElem?_append_right (Nat.le_add_right _ _), Nat.add_sub_cancel_left]
  unfold errorTexts
  split_ifs
  · rfl
  · rfl

theorem length_errorTexts_of_texts (h : p.texts = q.texts) : p.errorTexts.length = q.errorTexts.length := by
  have hcaption := p.caption_of_texts
  rw [h, q.caption_of_texts] at hcaption
  rw [length_errorTexts, length_errorTexts]
  split_ifs at hcaption ⊢
  · rfl
  · exact absurd (Option.some.inj hcaption) (by decide)
  · exact absurd (Option.some.inj hcaption) (by decide)
  · rfl

/-- **No two displays look alike**: two frames have the same texts exactly if they show the same result, error, steps
and history. -/
theorem texts_eq_iff (p q : Panel) :
    p.texts = q.texts ↔ p.result = q.result ∧ p.error = q.error ∧ p.steps = q.steps ∧ p.history = q.history := by
  constructor
  · intro h
    have hlength := length_errorTexts_of_texts h
    rw [texts_eq, texts_eq] at h
    obtain ⟨herror, h⟩ := List.append_inj (List.append_cancel_left h) hlength
    obtain ⟨hresult, hhistory⟩ := List.append_inj h (p.length_resultTexts.trans q.length_resultTexts.symm)
    obtain ⟨hresult, hsteps⟩ := resultTexts_eq_iff.mp hresult
    exact ⟨hresult, errorTexts_eq_iff.mp herror, hsteps, historyTexts_eq_iff.mp hhistory⟩
  · rintro ⟨hresult, herror, hsteps, hhistory⟩
    rw [texts_eq, texts_eq, errorTexts_eq_iff.mpr herror, resultTexts_eq_iff.mpr ⟨hresult, hsteps⟩,
      historyTexts_eq_iff.mpr hhistory]

end Frames

end DeskCalc.Panel
