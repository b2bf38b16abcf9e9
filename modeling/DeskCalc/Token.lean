import DeskCalc.Operator

/-!
# DeskCalc.Token — tokens and their text

* A token is a literal, kept as it was typed, an operator or a parenthesis.
* `render` writes tokens with one space between neighbours.
-/

namespace DeskCalc

/-- A token of an expression. -/
inductive Token where
  | num (text : String)
  | op (o : Operator)
  | lparen
  | rparen
deriving DecidableEq

namespace Token

/-- The text of a token. -/
def text : Token → String
  | num s => s
  | op o => o.symbol.toString
  | lparen => "("
  | rparen => ")"

/-- The priority of an operator; literals and parentheses have none. -/
def priority? : Token → Option Nat
  | op o => some o.priority
  | _ => none

/-- Whether a token is a parenthesis. -/
def isParen : Token → Bool
  | lparen | rparen => true
  | _ => false

/-- The text of a list of tokens. -/
def render (ts : List Token) : String := String.intercalate " " (ts.map text)

@[simp] theorem render_nil : render [] = "" := rfl

@[simp] theorem render_singleton (t : Token) : render [t] = t.text := rfl

end Token

end DeskCalc
