import DeskCalc.Panel

/-!
# DeskCalc.Panel.Button — the keys and the buttons

* A key inserts a symbol at the end of the entry, and keeps operators one space away from their operands.
* The other buttons clear, erase or evaluate.
* `Button.all` lists the buttons in the order in which they are drawn; their labels are distinct, so a label names its
  button (`ofLabel?`).
-/

namespace DeskCalc.Panel

open Text

/-- A key of the pad. -/
inductive Key where
  | digit (d : Fin 10)
  | point
  | op (o : Operator)
  | lparen
  | rparen
deriving DecidableEq

namespace Key

/-- The symbol on a key. -/
def symbol : Key → Char
  | digit d => d.val.digitChar
  | point => '.'
  | op o => o.symbol
  | lparen => '('
  | rparen => ')'

/-- Whether an opening parenthesis after this text would touch an operand. -/
def endsInOperand (cs : List Char) : Bool :=
  match (dropEndWhile isBlank cs).getLast? with
  | some c => c.isDigit || c == ')'
  | none => false

/-- The text after a key. -/
def insert (k : Key) (cs : List Char) : List Char :=
  match k with
  | digit _ | point => cs ++ [k.symbol]
  | op _ => (if dropSpaces cs = [] then [] else dropSpaces cs ++ [' ']) ++ [k.symbol, ' ']
  | lparen => (if endsInOperand cs then cs ++ [' '] else cs) ++ [k.symbol]
  | rparen => dropSpaces cs ++ [k.symbol]

end Key

/-- A button of the panel. -/
inductive Button where
  | clearEntry
  | clearResults
  | reset
  | equals
  | erase
  | key (k : Key)
deriving DecidableEq

namespace Button

/-- The text on a button. -/
def label : Button → String
  | clearEntry => "C"
  | clearResults => "CLR"
  | reset => "AC"
  | equals => "="
  | erase => "DEL"
  | key k => k.symbol.toString

/-- The buttons above the pad. -/
def bar : List Button := [clearEntry, clearResults, reset, equals]

/-- The pad, row by row. -/
def pad : List Button :=
  [key (.digit 7), key (.digit 8), key (.digit 9), erase,
   key (.digit 4), key (.digit 5), key (.digit 6), key (.op .div),
   key (.digit 1), key (.digit 2), key (.digit 3), key (.op .mul),
   key (.digit 0), key .point, key (.op .sub), key (.op .add),
   key .lparen, key .rparen]

/-- All buttons, in drawing order. -/
def all : List Button := bar ++ pad

/-- The button with a label. -/
def ofLabel? (s : String) : Option Button := all.find? fun b => b.label == s

/-- What a button does. -/
def press (b : Button) (p : Panel) : Panel :=
  match b with
  | clearEntry => p.clearEntry
  | clearResults => p.clearResults
  | reset => p.reset
  | equals => p.evaluate
  | erase => p.erase
  | key k => p.editEntry k.insert

end Button

end DeskCalc.Panel
