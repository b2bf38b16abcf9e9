import DeskCalc.Fault
import DeskCalc.Text.Blank
import DeskCalc.Token

/-!
# DeskCalc.Token.Scan — from text to tokens

* Digits and points run together into literals; operators and parentheses stand alone; blanks only separate.
* The one fault is a character of no token.  `tokenize` reports the first of them with its position, so the cut into
  tokens (`scan`) is made only of texts all of whose characters it knows, and has no failure of its own.
* `scan` reads the text from its end: a literal is complete when the character before its run is known.
-/

namespace DeskCalc.Token

open Text

/-! ## Characters -/

/-- The characters of literals: ASCII digits and the point. -/
def isNumeral (c : Char) : Bool := c.isDigit || c == '.'

/-- The token that a character forms alone. -/
def ofChar? : Char → Option Token
  | '(' => some lparen
  | ')' => some rparen
  | c => (Operator.ofChar? c).map op

/-- Whether a character may stand in an expression. -/
def isKnown (c : Char) : Bool := isBlank c || isNumeral c || (ofChar? c).isSome

/-- The first character that may not stand in an expression, with its position. -/
def firstUnknown? (cs : List Char) : Option (Char × Nat) := cs.zipIdx.find? fun p => !isKnown p.1

/-! ## Runs and tokens -/

/-- A text cut into tokens, except that the run of numerals it starts with is still open. -/
structure Scan where
  run : List Char
  rest : List Token
deriving DecidableEq

namespace Scan

/-- The tokens, the open run being a literal if it is not empty. -/
def close (s : Scan) : List Token := if s.run = [] then s.rest else num (String.ofList s.run) :: s.rest

/-- Puts a character before a text. -/
def cons (c : Char) (s : Scan) : Scan :=
  if isNumeral c then ⟨c :: s.run, s.rest⟩
  else match ofChar? c with
    | some t => ⟨[], t :: s.close⟩
    | none => ⟨[], s.close⟩

end Scan

/-- The cut of a text into tokens. -/
def scan (cs : List Char) : Scan := cs.foldr Scan.cons ⟨[], []⟩

@[simp] theorem scan_nil : scan [] = ⟨[], []⟩ := rfl

@[simp] theorem scan_cons (c : Char) (cs : List Char) : scan (c :: cs) = Scan.cons c (scan cs) := rfl

/-- The tokens of a text, or its first unknown character. -/
def tokenize (s : String) : Except Fault (List Token) :=
  match firstUnknown? s.toList with
  | some (c, i) => .error (.unexpectedChar c i)
  | none => .ok (scan s.toList).close

end DeskCalc.Token
