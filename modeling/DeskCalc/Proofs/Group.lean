import DeskCalc.Proofs.Yard
import Mathlib.Data.List.Basic

/-!
# DeskCalc.Proofs.Group — a group in parentheses is worked out on its own

* A pass takes no notice of what was written before it, nor of the groups around it (`after_nested`).  An opening
  parenthesis starts a pass of its own, and the closing one leaves the order of the group behind what was written
  (`after_group`).
* `ofTokens_group`: so the order of a group stands as a block between two lists that do not depend on it, and a literal
  in the place of the group stands as a block between the same two (`ofTokens_group_for_literal`).
-/

namespace DeskCalc.Rpn

open Token

namespace Yard

variable {y y' : Yard} {t : Token} {ts rpn written : List Token} {enclosing : List (List Operator)} {f : Fault}

/-! ## A pass inside another one -/

section Nested

/-- The yard with tokens written before it and groups around it. -/
def nested (written : List Token) (enclosing : List (List Operator)) (y : Yard) : Yard :=
  ⟨y.written ++ written, y.waiting, y.enclosing ++ enclosing⟩

theorem settle_nested (level : ℕ) (y : Yard) :
    (y.nested written enclosing).settle level = (y.settle level).nested written enclosing := by
  simp [settle, nested]

/-- A step goes the same way inside another pass. -/
theorem step_nested (h : y.step t = .ok y') :
    (y.nested written enclosing).step t = .ok (y'.nested written enclosing) := by
  cases t with
  | num text =>
    obtain rfl := Except.ok.inj h
    rfl
  | op o =>
    obtain rfl := Except.ok.inj h
    simp only [step, settle_nested]
    rfl
  | lparen =>
    obtain rfl := Except.ok.inj h
    rfl
  | rparen =>
    obtain ⟨own, waiting, groups⟩ := y
    cases groups with
    | nil => cases h
    | cons os rest =>
      obtain rfl := Except.ok.inj h
      simp only [step, settle_nested]
      rfl

/-- Only a closing parenthesis without a group to close fails, and tokens before it are no help. -/
theorem step_nested_error (h : y.step t = .error f) : (y.nested written []).step t = .error f := by
  cases t with
  | num text => cases h
  | op o => cases h
  | lparen => cases h
  | rparen =>
    obtain ⟨own, waiting, groups⟩ := y
    cases groups with
    | nil => exact h
    | cons os rest => cases h

theorem after_nested (h : y.after ts = .ok y') :
    (y.nested written enclosing).after ts = .ok (y'.nested written enclosing) := by
  induction ts generalizing y with
  | nil =>
    obtain rfl := Except.ok.inj h
    rfl
  | cons t ts ih =>
    rw [after_cons, Fault.bind_eq_ok_iff] at h
    obtain ⟨y₁, h₁, h₂⟩ := h
    rw [after_cons, step_nested h₁]
    exact ih h₂

theorem after_nested_error (h : y.after ts = .error f) : (y.nested written []).after ts = .error f := by
  induction ts generalizing y with
  | nil => cases h
  | cons t ts ih =>
    rw [after_cons] at h ⊢
    cases h₁ : y.step t with
    | error g =>
      rw [h₁] at h
      obtain rfl : g = f := Except.error.inj h
      rw [step_nested_error h₁]
      rfl
    | ok y₁ =>
      rw [h₁] at h
      rw [step_nested h₁]
      exact ih h

theorem finish_nested (y : Yard) : (y.nested written []).finish = y.finish.map fun rpn => written.reverse ++ rpn := by
  simp only [finish, settle_nested]
  by_cases he : y.enclosing = []
  · simp [nested, he, Except.map]
  · simp [nested, he, Except.map]

/-- Tokens written before come out in front, whatever comes after them. -/
theorem after_finish_nested (y : Yard) (ts : List Token) :
    (y.nested written []).after ts >>= finish = (y.after ts >>= finish).map fun rpn => written.reverse ++ rpn := by
  cases h : y.after ts with
  | error f =>
    rw [after_nested_error h]
    rfl
  | ok z =>
    rw [after_nested h]
    exact finish_nested z

end Nested

/-! ## Groups -/

/-- **A group** is written as its own order, and nothing else changes. -/
theorem after_group (h : ofTokens ts = .ok rpn) (y : Yard) :
    y.after (lparen :: (ts ++ [rparen])) = .ok (y.write rpn) := by
  rw [ofTokens_eq, Fault.bind_eq_ok_iff] at h
  obtain ⟨z, hz, hfinish⟩ := h
  have he : z.enclosing = [] := by
    unfold finish at hfinish
    split_ifs at hfinish with he
    exact he
  rw [finish, if_pos he] at hfinish
  -- the opening parenthesis starts the pass of the group, inside the pass around it
  have hopen : y.step lparen = .ok (empty.nested y.written (y.waiting :: y.enclosing)) := rfl
  have hclose : (z.nested y.written (y.waiting :: y.enclosing)).step rparen = .ok (y.write rpn) := by
    obtain rfl := Except.ok.inj hfinish
    simp [step, nested, he, settle, write]
  rw [after_cons, hopen]
  show (empty.nested y.written (y.waiting :: y.enclosing)).after (ts ++ [rparen]) = _
  rw [after_append, after_nested hz]
  show (z.nested y.written (y.waiting :: y.enclosing)).after [rparen] = _
  rw [after_cons, hclose]
  rfl

end Yard

section Block

variable {as bs ts rpn : List Token}

/-- What is written before and after a group between two lists of tokens. -/
def surround (as bs : List Token) : Except Fault (List Token × List Token) := do
  let y ← run as
  let behind ← { y with written := [] }.after bs >>= Yard.finish
  return (y.written.reverse, behind)

/-- Tokens that only write something, whatever the yard, count by what they write. -/
theorem ofTokens_block {us : List Token} (h : ∀ y : Yard, y.after us = .ok (y.write rpn)) (as bs : List Token) :
    ofTokens (as ++ (us ++ bs)) = (surround as bs).map fun p => p.1 ++ rpn ++ p.2 := by
  rw [ofTokens_eq, Yard.after_append, surround]
  show _ = (Yard.empty.after as >>= _).map _
  cases Yard.empty.after as with
  | error f => rfl
  | ok y =>
    have hwrite : y.write rpn = { y with written := [] }.nested (rpn.reverse ++ y.written) [] := by
      simp [Yard.write, Yard.nested]
    show (y.after (us ++ bs) >>= Yard.finish) = _
    rw [Yard.after_append, h, hwrite]
    show (Yard.nested _ [] _).after bs >>= Yard.finish = _
    rw [Yard.after_finish_nested]
    show _ = ((({ y with written := [] } : Yard).after bs >>= Yard.finish) >>= _).map _
    cases (({ y with written := [] } : Yard).after bs >>= Yard.finish) with
    | error f => rfl
    | ok behind => simp [Except.map, bind, Except.bind, pure, Except.pure]

/-- A literal is a block. -/
theorem ofTokens_literal (text : String) (as bs : List Token) :
    ofTokens (as ++ num text :: bs) = (surround as bs).map fun p => p.1 ++ [num text] ++ p.2 := by
  have hwrite : ∀ y : Yard, y.after [num text] = .ok (y.write [num text]) := fun _ => rfl
  exact ofTokens_block hwrite as bs

/-- **The order of a group is a block** in the order of the whole, or the parentheses around it do not match. -/
theorem ofTokens_group (h : ofTokens ts = .ok rpn) (as bs : List Token) :
    ofTokens (as ++ lparen :: (ts ++ rparen :: bs)) = (surround as bs).map fun p => p.1 ++ rpn ++ p.2 := by
  have hsplit : lparen :: (ts ++ rparen :: bs) = lparen :: (ts ++ [rparen]) ++ bs := by simp
  rw [hsplit]
  exact ofTokens_block (Yard.after_group h) as bs

/-- Parentheses around the whole change nothing, however many there are. -/
theorem ofTokens_wrapped (h : ofTokens ts = .ok rpn) (n : ℕ) :
    ofTokens (List.replicate n lparen ++ ts ++ List.replicate n rparen) = .ok rpn := by
  induction n with
  | zero => simpa using h
  | succ n ih =>
    have hsplit : List.replicate (n + 1) lparen ++ ts ++ List.replicate (n + 1) rparen =
        [] ++ lparen :: (List.replicate n lparen ++ ts ++ List.replicate n rparen ++ rparen :: []) := by
      rw [List.replicate_succ, List.replicate_succ']
      simp
    have hnone : surround [] [] = .ok ([], []) := rfl
    rw [hsplit, ofTokens_group ih, hnone]
    simp [Except.map]

/-- **A group stands for a literal**: in the order of any list, the literal is replaced by the order of the group, and
a list that has no order fails in the same way with either.  The literal must not occur in the list a second time, for
it marks the place. -/
theorem ofTokens_group_for_literal {as bs : List Token} {text : String} (h : ofTokens ts = .ok rpn)
    (has : num text ∉ as) (hbs : num text ∉ bs) :
    (∀ front back, ofTokens (as ++ [num text] ++ bs) = .ok (front ++ [num text] ++ back) →
      ofTokens (as ++ [lparen] ++ ts ++ [rparen] ++ bs) = .ok (front ++ rpn ++ back)) ∧
    (∀ f, ofTokens (as ++ [num text] ++ bs) = .error f ↔
      ofTokens (as ++ [lparen] ++ ts ++ [rparen] ++ bs) = .error f) ∧
    ∀ n, ofTokens (List.replicate n lparen ++ ts ++ List.replicate n rparen) = .ok rpn := by
  have hliteral : as ++ [num text] ++ bs = as ++ num text :: bs := by simp
  have hgroup : as ++ [lparen] ++ ts ++ [rparen] ++ bs = as ++ lparen :: (ts ++ rparen :: bs) := by simp
  rw [hliteral, hgroup, ofTokens_group h]
  refine ⟨?_, ?_, ofTokens_wrapped h⟩
  · intro front back horder
    -- the literal stands once in the order, so it parts the order in one way only
    have honce : (front ++ [num text] ++ back).count (num text) = 1 := by
      rw [count_of_ofTokens horder rfl, List.count_append, List.count_cons_self, List.count_eq_zero.mpr has,
        List.count_eq_zero.mpr hbs]
    rw [List.count_append, List.count_append, List.count_singleton_self] at honce
    have hfront : num text ∉ front := List.count_eq_zero.mp (by omega)
    have hback : num text ∉ back := List.count_eq_zero.mp (by omega)
    rw [ofTokens_literal] at horder
    cases hs : surround as bs with
    | error f =>
      rw [hs] at horder
      cases horder
    | ok p =>
      rw [hs] at horder
      have hsame : front ++ num text :: back = p.1 ++ num text :: p.2 := by
        simpa using (Except.ok.inj horder).symm
      obtain ⟨rfl, -, rfl⟩ := (List.append_cons_inj_of_notMem hfront hback).mp hsame
      rfl
  · intro f
    rw [ofTokens_literal]
    cases surround as bs with
    | error g => exact Iff.rfl
    | ok p => simp [Except.map]

/-- Neither the list nor the group is an expression. -/
theorem ofTokens_group_for_literal_disordered :
    ofTokens [op .div, num "3", op .add] = .ok [num "3", op .div, op .add] ∧
    num "0" ∉ [num "1", op .sub] ∧ num "0" ∉ [op .mul, op .add, num "2"] ∧
    ofTokens ([num "1", op .sub] ++ [lparen] ++ [op .div, num "3", op .add] ++ [rparen] ++
        [op .mul, op .add, num "2"]) =
      .ok ([num "1"] ++ [num "3", op .div, op .add] ++ [op .mul, op .sub, num "2", op .add]) ∧
    (∀ f, ofTokens ([num "1", op .sub] ++ [num "0"] ++ [op .mul, op .add, num "2"]) = .error f ↔
      ofTokens ([num "1", op .sub] ++ [lparen] ++ [op .div, num "3", op .add] ++ [rparen] ++
        [op .mul, op .add, num "2"]) = .error f) ∧
    ∀ n, ofTokens (List.replicate n lparen ++ [op .div, num "3", op .add] ++ List.replicate n rparen) =
      .ok [num "3", op .div, op .add] := by
  have h : ofTokens [op .div, num "3", op .add] = .ok [num "3", op .div, op .add] := rfl
  have has : num "0" ∉ [num "1", op .sub] := by decide
  have hbs : num "0" ∉ [op .mul, op .add, num "2"] := by decide
  have hboth := ofTokens_group_for_literal h has hbs
  exact ⟨h, has, hbs, hboth.1 [num "1"] [op .mul, op .sub, num "2", op .add] rfl, hboth.2⟩

end Block

end DeskCalc.Rpn
