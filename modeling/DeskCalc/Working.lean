import DeskCalc.Answer
import DeskCalc.Rpn.Text
import DeskCalc.Surface

/-!
# DeskCalc.Working — the evaluation of an entry with its working

* The entry is checked, cut into tokens, put into reverse Polish order, computed, and its value is written.
* `Working` keeps the texts of the tokens and of the reverse Polish order.  A text that was not reached is empty; one
  that was reached stays, whatever happens later.
* A value that is infinite or NaN at the end is an overflow.
-/

namespace DeskCalc

/-- The outcome of an evaluation, with the texts of its steps. -/
structure Working where
  tokens : String
  rpn : String
  outcome : Except Fault String

/-- The text of a finite value. -/
def finiteText (x : Float) : Except Fault String :=
  if x.isFinite then .ok (Answer.text x) else .error .overflow

namespace Working

/-- The tokens of an entry that passes the check. -/
def tokensOf (s : String) : Except Fault (List Token) := do
  Surface.check s
  Token.tokenize s

/-- The outcome of tokens in reverse Polish order. -/
def outcomeOf (rpn : List Token) : Except Fault String := do finiteText (← Rpn.value rpn)

/-- The evaluation of an entry. -/
def ofEntry (s : String) : Working :=
  match tokensOf s with
  | .error f => ⟨"", "", .error f⟩
  | .ok ts =>
    match Rpn.ofTokens ts with
    | .error f => ⟨Token.render ts, "", .error f⟩
    | .ok rpn => ⟨Token.render ts, Token.render rpn, outcomeOf rpn⟩

end Working

/-- The result of an entry. -/
def evaluate (s : String) : Except Fault String := (Working.ofEntry s).outcome

/-- The result of an entry, if it has one. -/
def evaluate? (s : String) : Option String := (evaluate s).toOption

end DeskCalc
