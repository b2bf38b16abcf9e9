import DeskCalc.Decimal.Shortest

/-!
# DeskCalc.Answer — the text of a value

* A whole value is written with all its digits; both zeros are `0`.
* Any other finite value is written as the shortest decimal that reads back, in full.
* `NaN`, `inf` and `-inf` stand for the rest.
-/

namespace DeskCalc.Answer

open Binary64

/-- The decimal written for a finite code. -/
def decimal (code : Nat) : Decimal :=
  if units code % unitsPerOne = 0 then ⟨units code / unitsPerOne, 0⟩ else Decimal.shortest code

/-- The text of a value. -/
def text (x : Float) : String :=
  if infinity < code x then "NaN"
  else
    let sign := if isNegative x ∧ code x ≠ 0 then "-" else ""
    sign ++ if code x = infinity then "inf" else String.ofList (decimal (code x)).plain

end DeskCalc.Answer
