import DeskCalc.Expr
import DeskCalc.Proofs.Alternation

/-!
# DeskCalc.Proofs.Stack — the stack of values

* `push_cases`: everything that a token can do to the stack.
* A literal makes the stack higher by one, an operator lower by one (`length_stackAfter`), so tokens that have a value
  have one literal more than operators (`balance_of_value`).
* `value_rpn`: the post-order of a tree has the value of the tree.
* Whatever fails here is at fault in its reverse Polish form (`kind_of_value`).
-/

namespace DeskCalc.Rpn

open Token Grammar

variable {stack stack' : List Float} {t : Token} {ts : List Token} {x : Float} {f : Fault}

/-- What a token does to the stack, if it does not fail. -/
theorem push_cases (h : push stack t = .ok stack') :
    (∃ text x, t = num text ∧ Literal.value? text = some x ∧ stack' = x :: stack) ∨
    (∃ o x y rest, t = op o ∧ stack = y :: x :: rest ∧ stack' = o.apply x y :: rest) := by
  cases t with
  | num text =>
    rw [push] at h
    split at h
    · rename_i x hx
      exact Or.inl ⟨text, x, rfl, hx, (Except.ok.inj h).symm⟩
    · cases h
  | op o =>
    rcases stack with _ | ⟨y, _ | ⟨x, rest⟩⟩
    · cases h
    · cases h
    · exact Or.inr ⟨o, x, y, rest, rfl, rfl, (Except.ok.inj h).symm⟩
  | lparen => cases h
  | rparen => cases h

/-! ## Height -/

theorem length_push (h : push stack t = .ok stack') : (stack'.length : ℤ) = stack.length + t.weight := by
  rcases push_cases h with ⟨text, x, rfl, -, rfl⟩ | ⟨o, x, y, rest, rfl, rfl, rfl⟩
  · simp [weight]
  · simp only [List.length_cons, weight]
    omega

theorem length_stackAfter (h : stackAfter stack ts = .ok stack') :
    (stack'.length : ℤ) = stack.length + balance ts := by
  refine Fault.foldlM_invariant (P := fun us stack' => (stack'.length : ℤ) = stack.length + balance us)
    (by simp) ?_ h
  intro us t stack₁ stack₂ ih h₁
  rw [length_push h₁, ih, balance_append, balance_cons, balance_nil]
  omega

/-! ## The one value at the end -/

theorem only_eq_ok_iff : only stack = .ok x ↔ stack = [x] := by
  constructor
  · intro h
    rcases stack with _ | ⟨y, _ | ⟨z, rest⟩⟩
    · cases h
    · rw [Except.ok.inj h]
    · cases h
  · rintro rfl
    rfl

theorem value_eq_ok_iff : value ts = .ok x ↔ stackAfter [] ts = .ok [x] := by
  constructor
  · intro h
    obtain ⟨stack, h₁, h₂⟩ := Fault.bind_eq_ok_iff.mp h
    rw [h₁, only_eq_ok_iff.mp h₂]
  · intro h
    exact Fault.bind_eq_ok_iff.mpr ⟨[x], h, rfl⟩

theorem balance_of_value (h : value ts = .ok x) : balance ts = 1 := by
  have hl := length_stackAfter (value_eq_ok_iff.mp h)
  simpa using hl.symm

/-- The post-order of a tree has the value of the tree. -/
theorem value_rpn {e : Expr} (h : e.value? = some x) : value e.rpn = .ok x :=
  value_eq_ok_iff.mpr (e.stackAfter_rpn h [])

/-! ## Faults -/

theorem kind_of_push (h : push stack t = .error f) : f.kind = .rpn := by
  cases t with
  | num text =>
    rw [push] at h
    split at h
    · cases h
    · exact Except.error.inj h ▸ rfl
  | op o =>
    rcases stack with _ | ⟨y, _ | ⟨x, rest⟩⟩
    · exact Except.error.inj h ▸ rfl
    · exact Except.error.inj h ▸ rfl
    · cases h
  | lparen => exact Except.error.inj h ▸ rfl
  | rparen => exact Except.error.inj h ▸ rfl

theorem kind_of_stackAfter (h : stackAfter stack ts = .error f) : f.kind = .rpn := by
  induction ts generalizing stack with
  | nil => cases h
  | cons t ts ih =>
    rw [stackAfter_cons, Fault.bind_eq_error_iff] at h
    rcases h with h | ⟨stack₁, -, h⟩
    · exact kind_of_push h
    · exact ih h

theorem kind_of_only (h : only stack = .error f) : f.kind = .rpn := by
  rcases stack with _ | ⟨y, _ | ⟨z, rest⟩⟩
  · exact Except.error.inj h ▸ rfl
  · cases h
  · exact Except.error.inj h ▸ rfl

theorem kind_of_value (h : value ts = .error f) : f.kind = .rpn := by
  rcases Fault.bind_eq_error_iff.mp h with h | ⟨stack, -, h⟩
  · exact kind_of_stackAfter h
  · exact kind_of_only h

end DeskCalc.Rpn
