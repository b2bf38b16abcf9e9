import DeskCalc.Binary64

/-!
# DeskCalc.Decimal — decimals, their plain spelling and their nearest code

* `Decimal.plain` writes a decimal in full, without an exponent.
* `Decimal.nearestCode` rounds a decimal once, exactly, to the binary64 format.  Decimals far beyond either end of
  the format are answered from the size of their exponent alone, so a huge exponent costs no huge power.
-/

namespace DeskCalc

/-- The number `coefficient * 10 ^ exponent`. -/
structure Decimal where
  coefficient : Nat
  exponent : Int
deriving DecidableEq

namespace Decimal

/-! ## Spelling -/

/-- The decimal digits of a number, padded with zeros on the left to at least `width`. -/
def paddedDigits (width n : Nat) : List Char :=
  let digits := Nat.toDigits 10 n
  List.replicate (width - digits.length) '0' ++ digits

/-- The number in full: its digits, and, for a negative exponent, a point with at least one digit before it. -/
def plain (d : Decimal) : List Char :=
  match d.exponent with
  | .ofNat n => Nat.toDigits 10 (d.coefficient * Nat.pow 10 n)
  | .negSucc n =>
    let places := n + 1
    let digits := paddedDigits (places + 1) d.coefficient
    digits.take (digits.length - places) ++ '.' :: digits.drop (digits.length - places)

/-! ## Rounding -/

/-- The code nearest to a decimal.

With `2 ^ log2 c ≤ c < 2 ^ (log2 c + 1)` and `2 ^ 3 ≤ 10`, the two early answers are those of `nearest`: in the
first the value is at least `2 ^ 1024`, in the second it is below half of the least positive value. -/
def nearestCode (d : Decimal) : Nat :=
  if d.coefficient = 0 then 0
  else match d.exponent with
    | .ofNat n =>
      if 1024 ≤ d.coefficient.log2 + 3 * n then Binary64.infinity
      else Binary64.nearest (d.coefficient * Nat.pow 10 n) 1
    | .negSucc n =>
      if d.coefficient.log2 + 1076 ≤ 3 * (n + 1) then 0
      else Binary64.nearest d.coefficient (Nat.pow 10 (n + 1))

end Decimal

end DeskCalc
