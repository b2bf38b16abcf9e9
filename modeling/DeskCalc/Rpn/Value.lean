import DeskCalc.Fault
import DeskCalc.Literal
import DeskCalc.Token

/-!
# DeskCalc.Rpn.Value — the value of tokens in reverse Polish order

* A literal is put on a stack; an operator takes the two values on top, the right operand first, and puts its own
  value there.
* The stack must hold exactly one value at the end.  Infinite values and NaN are values here.
-/

namespace DeskCalc.Rpn

open Token

/-- Takes one token; the top of the stack is the head of the list. -/
def push (stack : List Float) : Token → Except Fault (List Float)
  | num text =>
    match Literal.value? text with
    | some x => .ok (x :: stack)
    | none => .error (.unreadableLiteral text)
  | op o =>
    match stack with
    | y :: x :: rest => .ok (o.apply x y :: rest)
    | _ => .error (.missingOperand o)
  | lparen | rparen => .error .parenInRpn

/-- The one value left on a stack. -/
def only : List Float → Except Fault Float
  | [x] => .ok x
  | [] => .error .noValue
  | stack => .error (.leftoverValues stack.length)

/-- The stack after a list of tokens. -/
def stackAfter (stack : List Float) (ts : List Token) : Except Fault (List Float) := ts.foldlM push stack

@[simp] theorem stackAfter_nil (stack : List Float) : stackAfter stack [] = .ok stack := rfl

theorem stackAfter_cons (stack : List Float) (t : Token) (ts : List Token) :
    stackAfter stack (t :: ts) = push stack t >>= fun stack => stackAfter stack ts := by
  simp [stackAfter]

theorem stackAfter_append (stack : List Float) (ts us : List Token) :
    stackAfter stack (ts ++ us) = stackAfter stack ts >>= fun stack => stackAfter stack us := by
  simp [stackAfter]

/-- The value of a list of tokens in reverse Polish order. -/
def value (ts : List Token) : Except Fault Float := do only (← stackAfter [] ts)

end DeskCalc.Rpn
