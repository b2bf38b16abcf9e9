/-!
# DeskCalc.Operator — the four operations

* `symbol` and `ofChar?` write and read an operator as one character (`ofChar?_eq_some_iff`).
* `*` and `/` have a higher `priority` than `+` and `-`.
* `apply` is the binary64 operation itself: a division by zero has a value.
-/

namespace DeskCalc

/-- A binary operation. -/
inductive Operator where
  | add | sub | mul | div
deriving DecidableEq

namespace Operator

/-- The character that stands for an operation. -/
def symbol : Operator → Char
  | add => '+'
  | sub => '-'
  | mul => '*'
  | div => '/'

/-- The operation that a character stands for. -/
def ofChar? : Char → Option Operator
  | '+' => some add
  | '-' => some sub
  | '*' => some mul
  | '/' => some div
  | _ => none

/-- The strength with which an operation binds its operands. -/
def priority : Operator → Nat
  | add | sub => 2
  | mul | div => 3

/-- The value of an operation on a left and a right operand. -/
def apply : Operator → Float → Float → Float
  | add, x, y => x + y
  | sub, x, y => x - y
  | mul, x, y => x * y
  | div, x, y => x / y

@[simp] theorem ofChar?_symbol (o : Operator) : ofChar? o.symbol = some o := by cases o <;> rfl

/-- Reading is the inverse of writing. -/
theorem ofChar?_eq_some_iff {c : Char} {o : Operator} : ofChar? c = some o ↔ c = o.symbol := by
  refine ⟨fun h => ?_, fun h => h ▸ ofChar?_symbol o⟩
  unfold ofChar? at h
  split at h
  · exact Option.some.inj h ▸ rfl
  · exact Option.some.inj h ▸ rfl
  · exact Option.some.inj h ▸ rfl
  · exact Option.some.inj h ▸ rfl
  · cases h

end Operator

end DeskCalc
