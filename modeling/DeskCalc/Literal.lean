import DeskCalc.Decimal

/-!
# DeskCalc.Literal — the value of a literal

The grammar, with at most one sign in front and nothing around it:

* `inf`, `infinity` and `nan`, in letters of either case;
* ASCII digits with at most one point among, before or after them, at least one digit in all, then perhaps `e` or `E`,
  at most one sign and at least one digit.

A decimal is rounded once, ties to the even code; the sign of a zero is kept.
-/

namespace DeskCalc.Literal

/-- A sign, positive if there is none, and the text after it. -/
def splitSign : List Char → Bool × List Char
  | '+' :: cs => (false, cs)
  | '-' :: cs => (true, cs)
  | cs => (false, cs)

/-- The digits after a point, if the text starts with one, and the text after them. -/
def splitPlaces : List Char → List Char × List Char
  | '.' :: cs => (cs.takeWhile Char.isDigit, cs.dropWhile Char.isDigit)
  | cs => ([], cs)

/-- The number written by a nonempty string of digits. -/
def natural? (cs : List Char) : Option Nat :=
  if cs ≠ [] ∧ cs.all Char.isDigit then some (Nat.ofDigitChars 10 cs 0) else none

/-- The exponent that a whole text stands for; the empty text is exponent `0`. -/
def exponent? : List Char → Option Int
  | [] => some 0
  | c :: cs =>
    if c = 'e' ∨ c = 'E' then
      let (negative, digits) := splitSign cs
      (natural? digits).map fun n => if negative then -(n : Int) else n
    else none

/-- The decimal that a text without sign stands for. -/
def decimal? (cs : List Char) : Option Decimal :=
  let whole := cs.takeWhile Char.isDigit
  let (places, rest) := splitPlaces (cs.dropWhile Char.isDigit)
  match natural? (whole ++ places), exponent? rest with
  | some n, some e => some ⟨n, e - (places.length : Int)⟩
  | _, _ => none

/-- The code of the magnitude named by a word. -/
def word? (cs : List Char) : Option Nat :=
  match String.ofList (cs.map Char.toLower) with
  | "inf" | "infinity" => some Binary64.infinity
  | "nan" => some Binary64.notANumber
  | _ => none

/-- The code of the magnitude that a text without sign stands for. -/
def code? (cs : List Char) : Option Nat :=
  match word? cs with
  | some code => some code
  | none => (decimal? cs).map Decimal.nearestCode

/-- The value of a literal, if the text is one. -/
def value? (s : String) : Option Float :=
  let (negative, cs) := splitSign s.toList
  (code? cs).map (Binary64.ofCode negative)

end DeskCalc.Literal
