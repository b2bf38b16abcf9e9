import DeskCalc.Proofs.Precedence
import DeskCalc.Proofs.Rearrangement
import DeskCalc.Proofs.Stack

/-!
# DeskCalc.Proofs.Postorder — tokens with a value are the post-order of a tree

* Behind a stack of values stands a stack of trees (`Evaluates`), and the tokens taken so far are its `listing`: the
  post-orders of the trees, from the bottom of the stack to its top.
* A literal puts a tree on the stack, an operator joins the two trees on top (`exists_forest_of_push`).  So a run and
  a listing are the same thing (`stackAfter_empty_eq_ok_iff`).
* `value_eq_ok_iff_postorder`: tokens have a value exactly if they are the post-order of a tree whose literals have
  one, and then there is one such tree, which has the value of the tokens.
-/

namespace DeskCalc.Rpn

open Token

variable {stack stack' : List Float} {forest : List Expr} {t : Token} {ts : List Token} {x : Float}

/-! ## Stacks of trees -/

section Forest

/-- The trees of a stack have the values of another one, place by place. -/
def Evaluates (forest : List Expr) (stack : List Float) : Prop :=
  List.Forall₂ (fun e x => e.value? = some x) forest stack

/-- The post-orders of a stack of trees, from the bottom to the top. -/
def listing (forest : List Expr) : List Token := forest.reverse.flatMap Expr.rpn

@[simp] theorem listing_nil : listing [] = [] := rfl

theorem listing_cons (e : Expr) (forest : List Expr) : listing (e :: forest) = listing forest ++ e.rpn := by
  simp [listing]

/-- What a token does to the values, it does to the trees, and it is listed last. -/
theorem exists_forest_of_push (hf : Evaluates forest stack) (h : push stack t = .ok stack') :
    ∃ forest', Evaluates forest' stack' ∧ listing forest' = listing forest ++ [t] := by
  rcases push_cases h with ⟨text, x, rfl, hx, rfl⟩ | ⟨o, x, y, rest, rfl, rfl, rfl⟩
  · have hleaf : (Expr.num text).value? = some x := hx
    exact ⟨.num text :: forest, .cons hleaf hf, listing_cons (.num text) forest⟩
  · -- the tree of the right operand lies on top
    obtain ⟨r, forest₁, hr, hf₁, rfl⟩ := List.forall₂_cons_right_iff.mp hf
    obtain ⟨l, forest₂, hl, hf₂, rfl⟩ := List.forall₂_cons_right_iff.mp hf₁
    have hnode : (Expr.node o l r).value? = some (o.apply x y) := by rw [Expr.value?, hl, hr]
    refine ⟨.node o l r :: forest₂, .cons hnode hf₂, ?_⟩
    rw [listing_cons, listing_cons, listing_cons, Expr.rpn]
    simp only [List.append_assoc]

theorem exists_forest_of_stackAfter (hf : Evaluates forest stack) (h : stackAfter stack ts = .ok stack') :
    ∃ forest', Evaluates forest' stack' ∧ listing forest' = listing forest ++ ts := by
  refine Fault.foldlM_invariant
    (P := fun us stack' => ∃ forest', Evaluates forest' stack' ∧ listing forest' = listing forest ++ us)
    ⟨forest, hf, (List.append_nil _).symm⟩ ?_ h
  rintro us t stack₁ stack₂ ⟨forest₁, hf₁, hlisting₁⟩ h₁
  obtain ⟨forest₂, hf₂, hlisting₂⟩ := exists_forest_of_push hf₁ h₁
  refine ⟨forest₂, hf₂, ?_⟩
  rw [hlisting₂, hlisting₁, List.append_assoc]

/-- A listing puts the values of its trees on the stack. -/
theorem stackAfter_listing (hf : Evaluates forest stack) : stackAfter [] (listing forest) = .ok stack := by
  induction hf with
  | nil => rfl
  | @cons e x forest stack he _ ih =>
    rw [listing_cons, stackAfter_append, ih]
    exact e.stackAfter_rpn he stack

/-- **Runs are listings**: the tokens that leave a stack of values are those that list trees with these values. -/
theorem stackAfter_empty_eq_ok_iff :
    stackAfter [] ts = .ok stack ↔ ∃ forest, Evaluates forest stack ∧ listing forest = ts := by
  constructor
  · intro h
    exact exists_forest_of_stackAfter .nil h
  · rintro ⟨forest, hf, rfl⟩
    exact stackAfter_listing hf

end Forest

/-! ## One tree -/

section Tree

/-- A stack of one value has one tree behind it. -/
theorem exists_tree_of_value (h : value ts = .ok x) : ∃ e : Expr, e.value? = some x ∧ e.rpn = ts := by
  obtain ⟨forest, hf, rfl⟩ := stackAfter_empty_eq_ok_iff.mp (value_eq_ok_iff.mp h)
  obtain ⟨e, below, he, hbelow, rfl⟩ := List.forall₂_cons_right_iff.mp hf
  obtain rfl := List.forall₂_nil_right_iff.mp hbelow
  exact ⟨e, he, by rw [listing_cons, listing_nil, List.nil_append]⟩

/-- Tokens with a value have only literals with one. -/
theorem isSome_of_mem_literals {text : String} (h : value ts = .ok x) (ht : text ∈ literals ts) :
    (Literal.value? text).isSome = true := by
  obtain ⟨e, he, rfl⟩ := exists_tree_of_value h
  rw [e.literals_rpn] at ht
  exact Expr.isSome_value?_iff.mp (Option.isSome_of_eq_some he) text ht

/-- **The post-orders have values, and nothing else has**: a list of tokens has a value exactly if it is the post-order
of a tree all of whose literals have one, and the value is that of the tree.  No other tree has this post-order. -/
theorem value_eq_ok_iff_postorder (ts : List Token) (x : Float) :
    value ts = .ok x ↔
      ∃ e : Expr, (∀ text ∈ e.literals, (Literal.value? text).isSome = true) ∧ e.value? = some x ∧
        e.rpn = ts ∧ ∀ e' : Expr, e'.rpn = ts → e' = e := by
  constructor
  · intro h
    obtain ⟨e, he, rfl⟩ := exists_tree_of_value h
    have hliterals := Expr.isSome_value?_iff.mp (Option.isSome_of_eq_some he)
    exact ⟨e, hliterals, he, rfl, fun e' he' => Expr.rpn_injective he'⟩
  · rintro ⟨e, -, he, rfl, -⟩
    exact value_rpn he

end Tree

end DeskCalc.Rpn
