import DeskCalc.Rpn.Order
import DeskCalc.Rpn.Value
import DeskCalc.Token.Scan

/-!
# DeskCalc.Rpn.Text — reverse Polish order as text

* `ofEntry` writes the tokens of an entry in reverse Polish order, one space apart.
* `parse` reads such a text; a parenthesis has no place in it.
* `valueOfText` reads a text and computes its value.
-/

namespace DeskCalc.Rpn

/-- The reverse Polish text of an entry. -/
def ofEntry (s : String) : Except Fault String := do
  let ts ← Token.tokenize s
  let rpn ← ofTokens ts
  return Token.render rpn

/-- The tokens of a reverse Polish text. -/
def parse (s : String) : Except Fault (List Token) := do
  let ts ← Token.tokenize s
  if ts.any Token.isParen then throw .parenInRpn
  return ts

/-- The value of a reverse Polish text. -/
def valueOfText (s : String) : Except Fault Float := do value (← parse s)

end DeskCalc.Rpn
