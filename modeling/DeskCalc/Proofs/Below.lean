import DeskCalc.Proofs.Stack

/-!
# DeskCalc.Proofs.Below — the values that lie below

* A token that is not short of operands on a stack does the same to a higher one, and what lies below stays
  (`push_below`).  The fault of an unreadable literal or of a parenthesis does not depend on the stack at all.
* So a run that is never short of operands goes the same way on top of any values, and ends on top of them or with
  the fault that it has without them (`stackAfter_below`).
* Tokens that have a value put it on top of any stack (`stackAfter_of_value`), so the value is all that the tokens
  around a block get to see of it (`value_block`), and a literal with that value does as well
  (`value_block_for_literal`).
-/

namespace DeskCalc.Rpn

open Token

variable {stack : List Float} {t : Token} {as bs ts front rpn : List Token} {x : Float} {text : String}

/-! ## Runs on top of other values -/

section Frame

/-- A run stops for want of operands. -/
def Underflows (stack : List Float) (ts : List Token) : Prop := ∃ o, stackAfter stack ts = .error (.missingOperand o)

/-- What is short of operands stays so, whatever comes after it. -/
theorem Underflows.append (h : Underflows stack as) (bs : List Token) : Underflows stack (as ++ bs) := by
  obtain ⟨o, ho⟩ := h
  refine ⟨o, ?_⟩
  rw [stackAfter_append, ho]
  rfl

/-- **One token** leaves what lies below its operands as it is. -/
theorem push_below (h : ∀ o, push stack t ≠ .error (.missingOperand o)) (below : List Float) :
    push (stack ++ below) t = (push stack t).map fun own => own ++ below := by
  cases t with
  | num text =>
    rw [push, push]
    cases Literal.value? text with
    | none => rfl
    | some x => rfl
  | op o =>
    rcases stack with _ | ⟨y, _ | ⟨x, rest⟩⟩
    · exact absurd rfl (h o)
    · exact absurd rfl (h o)
    · rfl
  | lparen => rfl
  | rparen => rfl

/-- **A run** that is never short of operands leaves what lies below as it is. -/
theorem stackAfter_below (h : ¬Underflows stack ts) (below : List Float) :
    stackAfter (stack ++ below) ts = (stackAfter stack ts).map fun own => own ++ below := by
  induction ts generalizing stack with
  | nil => rfl
  | cons t ts ih =>
    have hpush : ∀ o, push stack t ≠ .error (.missingOperand o) := by
      intro o ho
      refine h ⟨o, ?_⟩
      rw [stackAfter_cons, ho]
      rfl
    rw [stackAfter_cons, stackAfter_cons, push_below hpush]
    cases hstep : push stack t with
    | error f => rfl
    | ok stack' =>
      refine ih ?_
      rintro ⟨o, ho⟩
      refine h ⟨o, ?_⟩
      rw [stackAfter_cons, hstep]
      exact ho

end Frame

/-! ## Blocks with a value -/

section Block

/-- Tokens with a value put it on top of any stack. -/
theorem stackAfter_of_value (h : value rpn = .ok x) (stack : List Float) : stackAfter stack rpn = .ok (x :: stack) := by
  have hown : stackAfter [] rpn = .ok [x] := value_eq_ok_iff.mp h
  have hnot : ¬Underflows [] rpn := by
    rintro ⟨o, ho⟩
    rw [hown] at ho
    cases ho
  have hframe := stackAfter_below hnot stack
  rw [hown] at hframe
  exact hframe

/-- A block counts by its value alone. -/
theorem value_block (h : value rpn = .ok x) (as bs : List Token) :
    value (as ++ rpn ++ bs) = stackAfter [] as >>= fun stack => stackAfter (x :: stack) bs >>= only := by
  rw [value, stackAfter_append, stackAfter_append]
  cases stackAfter [] as with
  | error f => rfl
  | ok stack =>
    show ((stackAfter stack rpn >>= fun stack => stackAfter stack bs) >>= only) = _
    rw [stackAfter_of_value h]
    rfl

theorem value_literal (h : Literal.value? text = some x) : value [num text] = .ok x := by
  have hpush : push [] (num text) = .ok [x] := by rw [push, h]
  rw [value_eq_ok_iff, stackAfter_cons, hpush]
  rfl

/-- **A block with a value is one value anywhere.**  Between any tokens, a literal with its value may take its place,
and the outcome is the same value or the same fault.  More generally, tokens that are not short of operands on the empty
stack do on any other stack, from the first token to the last, what they do on the empty one, on top of the values that
lie there. -/
theorem value_block_for_literal :
    (∀ seg x text, value seg = .ok x → Literal.value? text = some x →
      ∀ as bs, value (as ++ seg ++ bs) = value (as ++ [num text] ++ bs)) ∧
    ∀ ts, ¬Underflows [] ts → ∀ front, front <+: ts → ∀ below,
      stackAfter below front = (stackAfter [] front).map fun own => own ++ below := by
  constructor
  · intro seg x text hseg htext as bs
    rw [value_block hseg, value_block (value_literal htext)]
  · rintro ts hts front ⟨back, rfl⟩ below
    have hfront : ¬Underflows [] front := fun h => hts (h.append back)
    exact stackAfter_below hfront below

/-- The operator behind the block is short of an operand either way, and a parenthesis is a fault on any stack. -/
theorem value_block_for_literal_short :
    value [num "1", num "2", op .add] = .ok 3 ∧ Literal.value? "3.0" = some 3 ∧
    value ([num "7"] ++ [num "1", num "2", op .add] ++ [op .sub, op .mul]) =
      value ([num "7"] ++ [num "3.0"] ++ [op .sub, op .mul]) ∧
    ¬Underflows [] [num "4", lparen, op .div] ∧ [num "4", lparen] <+: [num "4", lparen, op .div] ∧
    stackAfter [5, 6] [num "4", lparen] = (stackAfter [] [num "4", lparen]).map fun own => own ++ [5, 6] := by
  have hseg : value [num "1", num "2", op .add] = .ok 3 := by decide +kernel
  have htext : Literal.value? "3.0" = some 3 := by decide +kernel
  have hrun : stackAfter [] [num "4", lparen, op .div] = .error .parenInRpn := by decide +kernel
  have hnot : ¬Underflows [] [num "4", lparen, op .div] := by
    rintro ⟨o, ho⟩
    rw [hrun] at ho
    cases ho
  have hfront : [num "4", lparen] <+: [num "4", lparen, op .div] := ⟨[op .div], rfl⟩
  exact ⟨hseg, htext, value_block_for_literal.1 _ 3 "3.0" hseg htext [num "7"] [op .sub, op .mul], hnot, hfront,
    value_block_for_literal.2 _ hnot _ hfront [5, 6]⟩

end Block

end DeskCalc.Rpn
