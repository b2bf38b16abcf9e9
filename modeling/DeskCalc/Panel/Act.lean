import DeskCalc.Panel.Button

/-!
# DeskCalc.Panel.Act — everything that can happen to the panel

* Some acts change the panel between two frames; the others are frames.
* A frame draws the entry first, which takes a pending wish for focus (`drawEntry`), and then handles its input, which
  may raise the wish again.
* The panel evaluates on Enter if the field of the entry has the cursor (`drawField`), and it is the toolkit that decides
  about the cursor (`fieldHasFocus`): the key takes it away, unless the frame asks for it.  So Enter evaluates only in a
  frame that finds the wish for focus pending (`pressEnter_eq`); a frame without the key draws the entry and no more,
  wherever the cursor is (`drawField_idle`).
-/

namespace DeskCalc

namespace Panel

/-- What can happen to the panel. -/
inductive Act where
  | setEntry (text : String)
  | reset
  | clearEntry
  | clearResults
  | erase
  | recallLine (n : Nat)
  | showResult (text : String) (steps : Steps)
  | showError (text : String) (steps : Steps)
  | idle
  | click (b : Button)
  | enter
  | escape
  | clickLine (n : Nat)

/-! ## Frames -/

/-- Draws the entry; the cursor goes there if that was wished. -/
def drawEntry (p : Panel) : Panel := { p with wantsFocus := false }

/-- A frame in which a button is clicked. -/
def clickButton (p : Panel) (b : Button) : Panel := b.press p.drawEntry

/-- The toolkit's rule for the cursor of a single-line field that has just been drawn: it stays in a field that had it,
except that Enter takes it away, and it is in a field for which the frame has asked. -/
def fieldHasFocus (had asked enter : Bool) : Bool := asked || (had && !enter)

/-- Draws the entry, and evaluates it if Enter is pressed while its field has the cursor.  The panel keeps no record of
the cursor, so whether the field had it before the frame (`had`) comes from outside. -/
def drawField (p : Panel) (had enter : Bool) : Panel :=
  if fieldHasFocus had p.wantsFocus enter && enter then p.drawEntry.evaluate else p.drawEntry

/-- A frame without Enter draws the entry and no more. -/
theorem drawField_idle (p : Panel) (had : Bool) : p.drawField had false = p.drawEntry := by
  rw [drawField, Bool.and_false]
  rfl

/-- Under Enter it makes no difference where the cursor was. -/
theorem drawField_enter (p : Panel) (had : Bool) :
    p.drawField had true = if p.wantsFocus then p.drawEntry.evaluate else p.drawEntry := by
  rw [drawField, fieldHasFocus, Bool.not_true, Bool.and_false, Bool.or_false, Bool.and_true]

/-- A frame in which Enter is pressed, with the cursor in the field before it. -/
def pressEnter (p : Panel) : Panel := p.drawField true true

theorem pressEnter_eq (p : Panel) : p.pressEnter = if p.wantsFocus then p.drawEntry.evaluate else p.drawEntry :=
  p.drawField_enter true

/-- A frame in which Escape is pressed. -/
def pressEscape (p : Panel) : Panel := p.clearEntry.drawEntry

/-- Whether the history has a line `n`. -/
def hasLine (p : Panel) (n : Nat) : Bool := decide (n < p.history.length)

/-- A frame that shows the history and, if it has a line `n`, one in which that line is clicked. -/
def clickHistory (p : Panel) (n : Nat) : Panel :=
  if p.hasLine n then p.drawEntry.drawEntry.recallLine n else p.drawEntry

/-! ## Runs -/

/-- The panel after an act. -/
def act (p : Panel) : Act → Panel
  | .setEntry text => { p with entry := text }
  | .reset => p.reset
  | .clearEntry => p.clearEntry
  | .clearResults => p.clearResults
  | .erase => p.erase
  | .recallLine n => p.recallLine n
  | .showResult text steps => p.showResult text steps
  | .showError text steps => p.showError text steps
  | .idle => p.drawEntry
  | .click b => p.clickButton b
  | .enter => p.pressEnter
  | .escape => p.pressEscape
  | .clickLine n => p.clickHistory n

/-- The panel after a run of acts. -/
def after (p : Panel) (as : List Act) : Panel := as.foldl act p

/-- The panel before a run of acts and after each of them. -/
def states (p : Panel) : List Act → List Panel
  | [] => [p]
  | a :: as => p :: states (p.act a) as

@[simp] theorem after_nil (p : Panel) : p.after [] = p := rfl

@[simp] theorem after_cons (p : Panel) (a : Act) (as : List Act) : p.after (a :: as) = (p.act a).after as := rfl

theorem after_append (p : Panel) (as bs : List Act) : p.after (as ++ bs) = (p.after as).after bs := by
  simp [after]

/-- The last state of a run is the panel after it. -/
theorem getLast?_states (p : Panel) (as : List Act) : (p.states as).getLast? = some (p.after as) := by
  induction as generalizing p with
  | nil => rfl
  | cons a as ih =>
    have h : (p.act a).states as ≠ [] := by cases as <;> simp [states]
    rw [states, List.getLast?_cons, ih]
    simp

end Panel

end DeskCalc
