import DeskCalc.Decimal

/-!
# DeskCalc.Decimal.Shortest — the fewest digits that read back

Every finite magnitude is a whole number of steps of `10 ^ (-1074)`, because `2 ^ (-1074)` is `5 ^ 1074` of them.
`shortest` goes through the decimal grids from coarse to fine, from the spacing of the first power of ten above the
value down to single steps, and stops at the first grid on which a neighbour of the value rounds to its code.

* Of two neighbours that round to the code the closer one is taken, and the upper one if they are equally close.
* The last grid never fails, since the value is a point of it.
-/

namespace DeskCalc.Decimal

/-- The number of decimal places in which every finite magnitude can be written. -/
def allPlaces : Nat := 1074

/-- The value of a code in steps of `10 ^ (-allPlaces)`. -/
def steps (code : Nat) : Nat := Binary64.units code * Nat.pow 5 allPlaces

/-- Whether `c` points of the grid of spacing `10 ^ n` steps round to the code. -/
def readsBack (code n c : Nat) : Bool :=
  Binary64.nearest (c * Nat.pow 10 n) (Nat.pow 10 allPlaces) == code

/-- Of a point at or below a value and the next one, with whether each rounds to the code, the one to take. -/
def closer? (value spacing below : Nat) : Bool → Bool → Option Nat
  | true, true => some (if 2 * value < (2 * below + 1) * spacing then below else below + 1)
  | true, false => some below
  | false, true => some (below + 1)
  | false, false => none

/-- The neighbour of a value on the grid of spacing `10 ^ n` steps that rounds to its code, if there is one. -/
def gridPoint? (code n : Nat) : Option Nat :=
  let value := steps code
  let spacing := Nat.pow 10 n
  let below := value / spacing
  closer? value spacing below (readsBack code n below) (readsBack code n (below + 1))

/-- The coefficient and the spacing found on the coarsest grid, from spacing `10 ^ n` down, that holds a neighbour
of the value which rounds to the code. -/
def coarsest (code : Nat) : Nat → Nat × Nat
  | 0 => (steps code, 0)
  | n + 1 => ((gridPoint? code (n + 1)).map fun c => (c, n + 1)).getD (coarsest code n)

/-- The decimal with the fewest digits that rounds to a finite code, and the closest one of those. -/
def shortest (code : Nat) : Decimal :=
  let found := coarsest code (Nat.toDigits 10 (steps code)).length
  ⟨found.1, (found.2 : Int) - (allPlaces : Int)⟩

end DeskCalc.Decimal
