/-!
# DeskCalc.Binary64 — magnitudes of the binary64 format and rounding to them

A magnitude is named by its code: the 63 bits below the sign bit.  Finite magnitudes come first, in the order of
their values, then the infinite one, then the codes of NaN.  The next code is the next value of the format, also
across powers of two and at the subnormal end, so rounding needs no case for a carry.

* `units c` is the value of the code `c` in units of the least positive value, `2 ^ (-1074)`.
* `nearest num den` is the code nearest to the quotient `num / den`, ties to the even code, `infinity` from half a
  step above the greatest finite value on.
* `code`, `isNegative` and `ofCode` take a `Float` apart and put it together.
-/

namespace DeskCalc.Binary64

/-! ## Values of codes -/

-- powers are written `Nat.pow b n`: what `b ^ n` stands for depends on the instances around it

/-- The code of the infinite magnitude; smaller codes are finite, larger ones are NaN. -/
def infinity : Nat := 0x7FF * Nat.pow 2 52

/-- A code of NaN. -/
def notANumber : Nat := infinity + Nat.pow 2 51

/-- The value of a finite code, in units of `2 ^ (-1074)`. -/
def units (code : Nat) : Nat :=
  if code < Nat.pow 2 52 then code
  else (Nat.pow 2 52 + code % Nat.pow 2 52) * Nat.pow 2 (code / Nat.pow 2 52 - 1)

/-- The number of units in one. -/
def unitsPerOne : Nat := Nat.pow 2 1074

/-! ## Rounding -/

/-- The natural number nearest to `num / den`, a half going to the even one. -/
def roundHalfEven (num den : Nat) : Nat :=
  let quotient := num / den
  let rest := num % den
  if 2 * rest < den ∨ (2 * rest = den ∧ quotient % 2 = 0) then quotient else quotient + 1

/-- The code nearest to `num / den`.  Between `2 ^ (52 + scale)` and `2 ^ (53 + scale)` units the codes lie
`2 ^ scale` units apart; below `2 ^ 53` units they lie one unit apart, and there `scale` is `0`. -/
def nearest (num den : Nat) : Nat :=
  let scale := (num * unitsPerOne / den).log2 - 52
  min (scale * Nat.pow 2 52 + roundHalfEven (num * unitsPerOne) (den * Nat.pow 2 scale)) infinity

/-! ## Floats -/

/-- The code of the magnitude of a float. -/
def code (x : Float) : Nat := x.toBits.toNat % Nat.pow 2 63

/-- Whether the sign bit of a float is set. -/
def isNegative (x : Float) : Bool := decide (Nat.pow 2 63 ≤ x.toBits.toNat)

/-- The float of a sign and the code of a magnitude. -/
def ofCode (negative : Bool) (code : Nat) : Float :=
  Float.ofBits (UInt64.ofNat ((if negative then Nat.pow 2 63 else 0) + code))

end DeskCalc.Binary64
