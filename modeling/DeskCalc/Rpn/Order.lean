import DeskCalc.Fault
import DeskCalc.Token

/-!
# DeskCalc.Rpn.Order — from the order of writing to reverse Polish order

One pass over the tokens.  A literal is written at once; an operator waits until an operator that binds no tighter, a
closing parenthesis or the end comes along.

* The operators that wait are kept group by group: `waiting` for the innermost open parenthesis, `enclosing` for the
  groups around it, one for each open parenthesis.  So a parenthesis never stands among the operators.
* `settle level` ends the wait of the operators that bind at least as tightly as `level`; level `0` ends all.
* Only parentheses can be at fault: one that closes nothing, or one that is still open at the end.
-/

namespace DeskCalc.Rpn

open Token

/-- The state of the pass. -/
structure Yard where
  /-- The tokens written so far, the last one first. -/
  written : List Token
  /-- The operators that wait in the innermost group, the last one first. -/
  waiting : List Operator
  /-- The operators that wait in the groups around it, from the inside out. -/
  enclosing : List (List Operator)
deriving DecidableEq

namespace Yard

/-- Before the first token. -/
def empty : Yard := ⟨[], [], []⟩

/-- Writes the operators of the innermost group that came last and bind at least as tightly as `level`. -/
def settle (level : Nat) (y : Yard) : Yard :=
  { y with
    written := ((y.waiting.takeWhile fun o => level ≤ o.priority).map op).reverse ++ y.written
    waiting := y.waiting.dropWhile fun o => level ≤ o.priority }

/-- Takes one token. -/
def step (y : Yard) : Token → Except Fault Yard
  | num text => .ok { y with written := num text :: y.written }
  | op o => .ok { y.settle o.priority with waiting := o :: (y.settle o.priority).waiting }
  | lparen => .ok { y with waiting := [], enclosing := y.waiting :: y.enclosing }
  | rparen =>
    match y.enclosing with
    | [] => .error .unmatchedClose
    | os :: rest => .ok { y.settle 0 with waiting := os, enclosing := rest }

/-- After the last token. -/
def finish (y : Yard) : Except Fault (List Token) :=
  if y.enclosing = [] then .ok (y.settle 0).written.reverse else .error .unclosedOpen

end Yard

/-- The pass over a list of tokens. -/
def run (ts : List Token) : Except Fault Yard := ts.foldlM Yard.step Yard.empty

/-- The tokens in reverse Polish order. -/
def ofTokens (ts : List Token) : Except Fault (List Token) := do (← run ts).finish

end DeskCalc.Rpn
