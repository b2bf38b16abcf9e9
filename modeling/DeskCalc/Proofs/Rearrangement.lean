import DeskCalc.Proofs.Yard

/-!
# DeskCalc.Proofs.Rearrangement — what the order keeps of the tokens

* `literals` lists the literals of some tokens, in their order.  Those of a sentence, and those of a post-order, are the
  leaves of the tree from left to right (`Sentence.literals_eq`, `Expr.literals_rpn`).
* A literal is written at once and an operator is none, so a yard has written the literals that it has taken, in the
  order in which it took them (`literals_step`, `literals_after`).
* `ofTokens_consumes_once`: every literal comes out once, in its place among the literals, every operator as often as
  it went in, and no parenthesis at all.
-/

namespace DeskCalc

namespace Token

variable {ts : List Token} {text : String}

/-! ## Literals -/

section Literals

/-- The text of a literal. -/
def literal? : Token → Option String
  | num text => some text
  | op _ | lparen | rparen => none

/-- The literals of a list of tokens, in their order. -/
def literals (ts : List Token) : List String := ts.filterMap literal?

@[simp] theorem literals_nil : literals [] = [] := rfl

@[simp] theorem literals_num_cons (text : String) (ts : List Token) :
    literals (num text :: ts) = text :: literals ts := rfl

@[simp] theorem literals_op_cons (o : Operator) (ts : List Token) : literals (op o :: ts) = literals ts := rfl

@[simp] theorem literals_lparen_cons (ts : List Token) : literals (lparen :: ts) = literals ts := rfl

@[simp] theorem literals_rparen_cons (ts : List Token) : literals (rparen :: ts) = literals ts := rfl

@[simp] theorem literals_append (ts us : List Token) : literals (ts ++ us) = literals ts ++ literals us :=
  List.filterMap_append

@[simp] theorem literals_reverse (ts : List Token) : literals ts.reverse = (literals ts).reverse :=
  List.filterMap_reverse

@[simp] theorem literals_map_op (os : List Operator) : literals (os.map op) = [] := by
  induction os with
  | nil => rfl
  | cons o os ih => rw [List.map_cons, literals_op_cons, ih]

theorem mem_literals_iff : text ∈ literals ts ↔ num text ∈ ts := by
  rw [literals, List.mem_filterMap]
  constructor
  · rintro ⟨t, ht, htext⟩
    cases t with
    | num s =>
      obtain rfl := Option.some.inj htext
      exact ht
    | op o => cases htext
    | lparen => cases htext
    | rparen => cases htext
  · intro h
    exact ⟨num text, h, rfl⟩

end Literals

end Token

open Token

/-- The literals of a post-order are the leaves of the tree. -/
theorem Expr.literals_rpn (e : Expr) : Token.literals e.rpn = e.literals := by
  induction e with
  | num text => rfl
  | node o l r ihl ihr => simp [rpn, literals, ihl, ihr]

/-- The literals of a sentence are the leaves of its tree. -/
theorem Grammar.Sentence.literals_eq {level : Grammar.Level} {ts : List Token} {e : Expr}
    (h : Grammar.Sentence level ts e) : Token.literals ts = e.literals := by
  induction h with
  | num text => rfl
  | group _ ih => simpa using ih
  | factor _ ih => exact ih
  | product _ ih => exact ih
  | times _ _ _ ihl ihr => simp [Expr.literals, ihl, ihr]
  | plus _ _ _ ihl ihr => simp [Expr.literals, ihl, ihr]

namespace Rpn

variable {ts rpn : List Token}

/-! ## In a yard -/

namespace Yard

variable {y y' : Yard} {t : Token}

section Written

/-- Only operators go on being written when others settle. -/
@[simp] theorem literals_settle (level : ℕ) (y : Yard) : literals (y.settle level).written = literals y.written := by
  simp [settle]

/-- A literal is written behind those before it. -/
theorem literals_step (h : y.step t = .ok y') : literals y'.written = literals [t] ++ literals y.written := by
  cases t with
  | num text =>
    obtain rfl := Except.ok.inj h
    rfl
  | op o =>
    obtain rfl := Except.ok.inj h
    exact literals_settle o.priority y
  | lparen =>
    obtain rfl := Except.ok.inj h
    rfl
  | rparen =>
    obtain ⟨written, waiting, enclosing⟩ := y
    cases enclosing with
    | nil => cases h
    | cons os rest =>
      obtain rfl := Except.ok.inj h
      exact literals_settle 0 ⟨written, waiting, os :: rest⟩

theorem literals_after (h : y.after ts = .ok y') :
    literals y'.written = (literals ts).reverse ++ literals y.written := by
  refine Fault.foldlM_invariant (P := fun us z => literals z.written = (literals us).reverse ++ literals y.written)
    rfl ?_ h
  intro us t y₁ y₂ ih h₁
  have hone : (literals [t]).reverse = literals [t] := by cases t <;> rfl
  calc literals y₂.written = literals [t] ++ literals y₁.written := literals_step h₁
    _ = (literals [t]).reverse ++ ((literals us).reverse ++ literals y.written) := by rw [ih, hone]
    _ = (literals (us ++ [t])).reverse ++ literals y.written := by
      rw [literals_append, List.reverse_append, List.append_assoc]

end Written

end Yard

/-! ## In an order -/

section Order

/-- The order leaves the literals in their order. -/
theorem literals_of_ofTokens (h : ofTokens ts = .ok rpn) : literals rpn = literals ts := by
  rw [ofTokens_eq, Fault.bind_eq_ok_iff] at h
  obtain ⟨y, h₁, h₂⟩ := h
  unfold Yard.finish at h₂
  split_ifs at h₂
  obtain rfl := Except.ok.inj h₂
  rw [literals_reverse, Yard.literals_settle, Yard.literals_after h₁]
  simp [Yard.empty]

/-- The order has the operators of the tokens. -/
theorem count_op_of_ofTokens (h : ofTokens ts = .ok rpn) (o : Operator) : rpn.count (op o) = ts.count (op o) :=
  count_of_ofTokens h rfl

/-- **Every token is consumed once**, in whatever order operators and operands stand: the order has no parenthesis, the
literals as they came, and is a rearrangement of the tokens other than parentheses, each operator as often as before. -/
theorem ofTokens_consumes_once (h : ofTokens ts = .ok rpn) :
    (∀ t ∈ rpn, t.isParen = false) ∧ literals rpn = literals ts ∧
      rpn.Perm (ts.filter fun t => !t.isParen) ∧ ∀ o, rpn.count (op o) = ts.count (op o) :=
  ⟨fun _ ht => isParen_of_mem_ofTokens h ht, literals_of_ofTokens h, perm_of_ofTokens h, count_op_of_ofTokens h⟩

/-- Operators in a row, a literal without a value and a group without an operator behind it. -/
theorem ofTokens_consumes_once_disordered :
    ofTokens [op .add, lparen, num "7", op .mul, op .sub, num "1.2.", rparen, num "7"] =
      .ok [num "7", op .mul, num "1.2.", op .sub, num "7", op .add] ∧
    (∀ t ∈ [num "7", op .mul, num "1.2.", op .sub, num "7", op .add], t.isParen = false) ∧
    literals [num "7", op .mul, num "1.2.", op .sub, num "7", op .add] = ["7", "1.2.", "7"] ∧
    [num "7", op .mul, num "1.2.", op .sub, num "7", op .add].Perm
      [op .add, num "7", op .mul, op .sub, num "1.2.", num "7"] ∧
    ∀ o, [num "7", op .mul, num "1.2.", op .sub, num "7", op .add].count (op o) =
      [op .add, lparen, num "7", op .mul, op .sub, num "1.2.", rparen, num "7"].count (op o) :=
  have h : ofTokens [op .add, lparen, num "7", op .mul, op .sub, num "1.2.", rparen, num "7"] =
      .ok [num "7", op .mul, num "1.2.", op .sub, num "7", op .add] := rfl
  ⟨h, ofTokens_consumes_once h⟩

end Order

end Rpn

end DeskCalc
