import DeskCalc.Rpn.Value

/-!
# DeskCalc.Expr — expression trees

* `rpn` lists the tokens of a tree in post-order: left operand, right operand, operator.
* `value?` computes the value of a tree from its leaves up.
* `isSome_value?_iff`: a tree has a value if its literals have one, whatever its operations are.
* `stackAfter_rpn`: the post-order of a tree puts the value of the tree on top of any stack.
-/

namespace DeskCalc

/-- An expression: a literal, or an operation on two expressions. -/
inductive Expr where
  | num (text : String)
  | node (o : Operator) (left right : Expr)
deriving DecidableEq

namespace Expr

/-- The tokens of a tree in post-order. -/
def rpn : Expr → List Token
  | num text => [.num text]
  | node o l r => l.rpn ++ r.rpn ++ [.op o]

/-- The value of a tree, if all its literals have one. -/
def value? : Expr → Option Float
  | num text => Literal.value? text
  | node o l r =>
    match l.value?, r.value? with
    | some x, some y => some (o.apply x y)
    | _, _ => none

/-- The literals of a tree, from left to right. -/
def literals : Expr → List String
  | num text => [text]
  | node _ l r => l.literals ++ r.literals

/-- No operation fails on values. -/
theorem isSome_value?_iff {e : Expr} :
    e.value?.isSome = true ↔ ∀ text ∈ e.literals, (Literal.value? text).isSome = true := by
  induction e with
  | num text => simp [value?, literals]
  | node o l r ihl ihr =>
    have hnode : (node o l r).value?.isSome = (l.value?.isSome && r.value?.isSome) := by
      rw [value?]
      cases l.value? <;> cases r.value? <;> rfl
    rw [hnode, Bool.and_eq_true, ihl, ihr, literals, List.forall_mem_append]

/-- The post-order of a tree puts its value on top of the stack. -/
theorem stackAfter_rpn {e : Expr} {x : Float} (h : e.value? = some x) (stack : List Float) :
    Rpn.stackAfter stack e.rpn = .ok (x :: stack) := by
  induction e generalizing x stack with
  | num text =>
    rw [value?] at h
    rw [rpn, Rpn.stackAfter_cons, Rpn.push, h]
    rfl
  | node o l r ihl ihr =>
    rw [value?] at h
    split at h
    · rename_i u v hu hv
      obtain rfl := Option.some.inj h
      rw [rpn, Rpn.stackAfter_append, Rpn.stackAfter_append, ihl hu]
      show (Rpn.stackAfter (u :: stack) r.rpn >>= fun stack => Rpn.stackAfter stack [.op o]) = _
      rw [ihr hv]
      rfl
    · simp at h

end Expr

end DeskCalc
