import DeskCalc.Expr
import DeskCalc.Text.Blank

/-!
# DeskCalc.Grammar — the sentences of the language and their trees

* `Sentence level ts e`: the tokens `ts` spell the tree `e` at a level of the grammar.  Operators of one level
  associate to the left, `*` and `/` bind tighter than `+` and `-`, and a group in parentheses is a factor.
* `Spaced ts cs`: the text `cs` writes the tokens `ts`, with any blanks around and between them.
-/

namespace DeskCalc

namespace Grammar

/-- The levels of the grammar. -/
inductive Level where
  | sum | product | factor
deriving DecidableEq

/-- The sentences of a level and their trees. -/
inductive Sentence : Level → List Token → Expr → Prop
  | num (text : String) : Sentence .factor [.num text] (.num text)
  | group {ts : List Token} {e : Expr} : Sentence .sum ts e → Sentence .factor (.lparen :: (ts ++ [.rparen])) e
  | factor {ts : List Token} {e : Expr} : Sentence .factor ts e → Sentence .product ts e
  | product {ts : List Token} {e : Expr} : Sentence .product ts e → Sentence .sum ts e
  | times {o : Operator} {ts us : List Token} {l r : Expr} : o = .mul ∨ o = .div →
      Sentence .product ts l → Sentence .factor us r → Sentence .product (ts ++ .op o :: us) (.node o l r)
  | plus {o : Operator} {ts us : List Token} {l r : Expr} : o = .add ∨ o = .sub →
      Sentence .sum ts l → Sentence .product us r → Sentence .sum (ts ++ .op o :: us) (.node o l r)

/-- The texts that write a list of tokens, with any blanks around and between them. -/
inductive Spaced : List Token → List Char → Prop
  | nil {blanks : List Char} : (∀ c ∈ blanks, Text.isBlank c = true) → Spaced [] blanks
  | cons {blanks : List Char} {t : Token} {ts : List Token} {cs : List Char} :
      (∀ c ∈ blanks, Text.isBlank c = true) → Spaced ts cs → Spaced (t :: ts) (blanks ++ t.text.toList ++ cs)

/-- A sentence has at least one token. -/
theorem Sentence.ne_nil {level : Level} {ts : List Token} {e : Expr} (h : Sentence level ts e) : ts ≠ [] := by
  induction h with
  | num text => simp
  | group _ _ => simp
  | factor _ ih => exact ih
  | product _ ih => exact ih
  | times _ _ _ _ _ => simp
  | plus _ _ _ _ _ => simp

end Grammar

end DeskCalc
