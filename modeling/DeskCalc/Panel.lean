import DeskCalc.Text.Trim
import DeskCalc.Working

/-!
# DeskCalc.Panel — what the calculator shows and remembers

* The panel holds the entry, the last result, the last error, the steps of the last evaluation and a history.
* `evaluate` computes the entry without the blanks at its ends.  An error leaves the result of an earlier evaluation
  in place; a result removes the error.
* The history keeps the last `historyLimit` evaluations of an entry that is not blank, the latest first.
* `wantsFocus` asks the next frame to put the cursor into the entry.
-/

namespace DeskCalc

namespace Panel

/-- The texts of the steps of an evaluation; `fault` is the label of its fault, empty if there is none. -/
structure Steps where
  tokens : String
  rpn : String
  fault : String
deriving DecidableEq

/-- No steps. -/
def Steps.none : Steps := ⟨"", "", ""⟩

/-- A past evaluation: the expression, and its result or the message of its fault. -/
structure Line where
  expression : String
  output : String
deriving DecidableEq

/-- The number of past evaluations kept. -/
def historyLimit : Nat := 20

end Panel

open Panel in
/-- The state of the calculator. -/
structure Panel where
  entry : String
  result : String
  error : String
  steps : Steps
  history : List Line
  wantsFocus : Bool
deriving DecidableEq

namespace Panel

open Text

/-- The panel at the start. -/
def initial : Panel := ⟨"", "", "", Steps.none, [], true⟩

/-! ## Clearing -/

/-- Empties everything. -/
def reset (_ : Panel) : Panel := initial

/-- Empties the entry only. -/
def clearEntry (p : Panel) : Panel := { p with entry := "", wantsFocus := true }

/-- Empties the result, the error and the steps. -/
def clearResults (p : Panel) : Panel :=
  { p with result := "", error := "", steps := Steps.none, wantsFocus := true }

/-! ## Editing the entry -/

/-- The text without the spaces at its end; other blanks stay. -/
def dropSpaces (cs : List Char) : List Char := dropEndWhile (· == ' ') cs

/-- The text without its last character that is not a space, nor the spaces around it. -/
def eraseLast (cs : List Char) : List Char := dropSpaces (dropSpaces cs).dropLast

/-- Edits the entry by a function on its characters. -/
def editEntry (p : Panel) (f : List Char → List Char) : Panel :=
  { p with entry := String.ofList (f p.entry.toList), wantsFocus := true }

theorem toList_entry_editEntry (p : Panel) (f : List Char → List Char) :
    (p.editEntry f).entry.toList = f p.entry.toList := by
  simp [editEntry]

/-- Erases the last character of the entry. -/
def erase (p : Panel) : Panel := p.editEntry eraseLast

/-- Brings the expression of a line of the history back into the entry. -/
def recallLine (p : Panel) (n : Nat) : Panel :=
  match p.history[n]? with
  | some line => { p with entry := line.expression, wantsFocus := true }
  | none => { p with wantsFocus := true }

/-! ## Evaluations -/

/-- Puts an evaluation of the entry on top of the history, unless the entry is blank. -/
def record (p : Panel) (output : String) : Panel :=
  let expression := trimmed p.entry
  if expression = "" then p
  else { p with history := (⟨expression, output⟩ :: p.history).take historyLimit }

/-- Shows a result. -/
def showResult (p : Panel) (text : String) (steps : Steps) : Panel :=
  { p.record text with result := text, error := "", steps := steps, wantsFocus := true }

/-- Shows an error; the result stays. -/
def showError (p : Panel) (text : String) (steps : Steps) : Panel :=
  { p.record text with error := text, steps := steps, wantsFocus := true }

/-- Evaluates the entry. -/
def evaluate (p : Panel) : Panel :=
  let w := Working.ofEntry (trimmed p.entry)
  match w.outcome with
  | .ok text => p.showResult text ⟨w.tokens, w.rpn, ""⟩
  | .error f => p.showError f.message ⟨w.tokens, w.rpn, f.label⟩

end Panel

end DeskCalc
