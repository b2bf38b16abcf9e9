import DeskCalc.Proofs.Yard

/-!
# DeskCalc.Proofs.Precedence — the order of a sentence and the tree that it stands for

* `Expr.rpn_append_inj`: read from its end, a list of tokens shows where a post-order begins and whose it is.  A
  sentence therefore has one tree only.
* `Sentence.link` and `Sentence.chain`: operators of one priority may go on joining factors, and the tree grows at its
  root, from left to right.
* `postorder_of_sentence`: the order of a sentence is the post-order of its tree.  Of two operators around an operand
  the one on the left goes first unless the other one binds more tightly, a chain of equal priority goes from left to
  right, and a group goes before any operator beside it.
-/

namespace DeskCalc

open Token Grammar

variable {o p : Operator} {ts us as bs cs : List Token} {e l r a b c : Expr}

/-! ## One tree only -/

section Unambiguous

/-- What ends with the post-order of a tree does so in one way. -/
theorem Expr.rpn_append_inj {e e' : Expr} (h : ts ++ e.rpn = us ++ e'.rpn) : ts = us ∧ e = e' := by
  induction e generalizing e' ts us with
  | num text =>
    cases e' with
    | num text' =>
      obtain ⟨hts, hlast⟩ := List.append_inj' h rfl
      exact ⟨hts, congrArg Expr.num (Token.num.inj (List.singleton_inj.mp hlast))⟩
    | node o' l' r' =>
      have hends : ts ++ [Token.num text] = us ++ (l'.rpn ++ r'.rpn) ++ [op o'] := by simpa [rpn] using h
      obtain ⟨-, hlast⟩ := List.append_inj' hends rfl
      cases List.singleton_inj.mp hlast
  | node o l r ihl ihr =>
    cases e' with
    | num text' =>
      have hends : ts ++ (l.rpn ++ r.rpn) ++ [op o] = us ++ [Token.num text'] := by simpa [rpn] using h
      obtain ⟨-, hlast⟩ := List.append_inj' hends rfl
      cases List.singleton_inj.mp hlast
    | node o' l' r' =>
      have hends : ts ++ l.rpn ++ r.rpn ++ [op o] = us ++ l'.rpn ++ r'.rpn ++ [op o'] := by simpa [rpn] using h
      obtain ⟨hops, hlast⟩ := List.append_inj' hends rfl
      -- the right operand stands at the end of what is left, and the left one before it
      obtain ⟨hleft, rfl⟩ := ihr hops
      obtain ⟨rfl, rfl⟩ := ihl hleft
      obtain rfl := Token.op.inj (List.singleton_inj.mp hlast)
      exact ⟨rfl, rfl⟩

theorem Expr.rpn_injective : Function.Injective Expr.rpn := by
  intro e e' h
  have hends : [] ++ e.rpn = [] ++ e'.rpn := h
  exact (rpn_append_inj hends).2

/-- The grammar is unambiguous. -/
theorem Grammar.Sentence.tree_unique {e' : Expr} (h : Sentence .sum ts e) (h' : Sentence .sum ts e') : e' = e :=
  Expr.rpn_injective (Except.ok.inj ((Rpn.ofTokens_sentence h').symm.trans (Rpn.ofTokens_sentence h)))

end Unambiguous

/-! ## Chains -/

section Chains

/-- An operator and its right operand, as tokens and as a tree. -/
structure Link where
  operator : Operator
  tokens : List Token
  operand : Expr

namespace Link

/-- The tokens of a link. -/
def spelled (k : Link) : List Token := op k.operator :: k.tokens

/-- The tree of an operand with a link behind it. -/
def join (e : Expr) (k : Link) : Expr := .node k.operator e k.operand

end Link

/-- The level of the grammar at which an operator joins operands. -/
def Operator.level : Operator → Level
  | add | sub => .sum
  | mul | div => .product

namespace Grammar

variable {level : Level}

/-- A factor is a sentence of every level. -/
theorem Sentence.ofFactor (h : Sentence .factor ts e) : Sentence level ts e := by
  cases level with
  | sum => exact .product (.factor h)
  | product => exact .factor h
  | factor => exact h

/-- At the level of an operator a factor more makes the operator the root. -/
theorem Sentence.link (h : Sentence o.level ts e) (hr : Sentence .factor us r) :
    Sentence o.level (ts ++ op o :: us) (.node o e r) := by
  cases o with
  | add => exact .plus (Or.inl rfl) h hr.ofFactor
  | sub => exact .plus (Or.inr rfl) h hr.ofFactor
  | mul => exact .times (Or.inl rfl) h hr
  | div => exact .times (Or.inr rfl) h hr

theorem Sentence.toSum (h : Sentence o.level ts e) : Sentence .sum ts e := by
  cases o with
  | add => exact h
  | sub => exact h
  | mul => exact .product h
  | div => exact .product h

theorem level_eq_of_priority (h : o.priority = p.priority) : o.level = p.level := by
  revert h
  cases o <;> cases p <;> decide

/-- Links of one level make a sentence longer, from left to right. -/
theorem Sentence.chain {links : List Link} (h : Sentence level ts e)
    (hl : ∀ k ∈ links, k.operator.level = level ∧ Sentence .factor k.tokens k.operand) :
    Sentence level (ts ++ links.flatMap Link.spelled) (links.foldl Link.join e) := by
  induction links generalizing ts e with
  | nil => simpa using h
  | cons k links ih =>
    obtain ⟨⟨rfl, hk⟩, hlinks⟩ := List.forall_mem_cons.mp hl
    have hnext := ih (h.link hk) hlinks
    simpa [Link.spelled, Link.join] using hnext

/-- Two operators around an operand: the one on the left goes first, unless the other one binds more tightly. -/
theorem Sentence.pair (ha : Sentence .factor as a) (hb : Sentence .factor bs b) (hc : Sentence .factor cs c) :
    Sentence .sum (as ++ op o :: (bs ++ op p :: cs))
      (if o.priority < p.priority then .node o a (.node p b c) else .node p (.node o a b) c) := by
  split_ifs with h
  · -- only `+` or `-` before `*` or `/` is of this kind
    have hlevels : (o = .add ∨ o = .sub) ∧ p.level = .product := by
      revert h
      cases o <;> cases p <;> decide
    obtain ⟨ho, hp⟩ := hlevels
    exact .plus ho ha.ofFactor (hp ▸ hb.ofFactor.link hc)
  · have hleft : Sentence o.level (as ++ op o :: bs) (.node o a b) := ha.ofFactor.link hb
    have hlevels : o.level = p.level ∨ p.level = .sum := by
      revert h
      cases o <;> cases p <;> decide
    have hleft' : Sentence p.level (as ++ op o :: bs) (.node o a b) := by
      rcases hlevels with hp | hp
      · exact hp ▸ hleft
      · exact hp ▸ hleft.toSum
    simpa using (hleft'.link hc).toSum

end Grammar

end Chains

/-! ## Orders -/

section Orders

namespace Rpn

/-- **The order of a sentence** is the post-order of its tree, the only one it has.  So `*` and `/` bind more tightly
than `+` and `-`, operators of equal priority associate to the left, and parentheses override both. -/
theorem postorder_of_sentence :
    (∀ {ts e}, Sentence .sum ts e → ofTokens ts = .ok e.rpn ∧ ∀ e', Sentence .sum ts e' → e' = e) ∧
    (∀ {as bs cs a b c}, Sentence .factor as a → Sentence .factor bs b → Sentence .factor cs c → ∀ o p : Operator,
      ofTokens (as ++ op o :: (bs ++ op p :: cs)) =
        .ok (if o.priority < p.priority then Expr.node o a (.node p b c) else .node p (.node o a b) c).rpn) ∧
    (∀ {ts e} {links : List Link}, Sentence .factor ts e → (∀ k ∈ links, Sentence .factor k.tokens k.operand) →
      (∀ k ∈ links, ∀ k' ∈ links, k.operator.priority = k'.operator.priority) →
      ofTokens (ts ++ links.flatMap Link.spelled) = .ok (links.foldl Link.join e).rpn) ∧
    (∀ {ts us l r}, Sentence .sum ts l → Sentence .sum us r → ∀ o : Operator,
      ofTokens (lparen :: (ts ++ [rparen]) ++ op o :: lparen :: (us ++ [rparen])) = .ok (Expr.node o l r).rpn) := by
  refine ⟨?_, ?_, ?_, ?_⟩
  · intro ts e h
    exact ⟨ofTokens_sentence h, fun e' h' => h.tree_unique h'⟩
  · intro as bs cs a b c ha hb hc o p
    exact ofTokens_sentence (ha.pair hb hc)
  · intro ts e links h hfactors hequal
    cases links with
    | nil => simpa using ofTokens_sentence h.ofFactor
    | cons k links =>
      have hlevel : ∀ k' ∈ k :: links, k'.operator.level = k.operator.level ∧ Sentence .factor k'.tokens k'.operand :=
        fun k' hk' => ⟨level_eq_of_priority (hequal k' hk' k (List.mem_cons_self ..)), hfactors k' hk'⟩
      exact ofTokens_sentence (h.ofFactor.chain hlevel).toSum
  · intro ts us l r hl hr o
    have h : Sentence o.level (lparen :: (ts ++ [rparen]) ++ op o :: lparen :: (us ++ [rparen])) (.node o l r) :=
      (Sentence.group hl).ofFactor.link (.group hr)
    exact ofTokens_sentence h.toSum

/-- `8/4/2`, and `6-2*3` without and with parentheses. -/
theorem postorder_of_sentence_samples :
    ofTokens [num "8", op .div, num "4", op .div, num "2"] = .ok [num "8", num "4", op .div, num "2", op .div] ∧
    ofTokens [num "6", op .sub, num "2", op .mul, num "3"] = .ok [num "6", num "2", num "3", op .mul, op .sub] ∧
    ofTokens [lparen, num "6", op .sub, num "2", rparen, op .mul, lparen, num "3", rparen] =
      .ok [num "6", num "2", op .sub, num "3", op .mul] ∧
    ∀ e, Sentence .sum [num "6", op .sub, num "2", op .mul, num "3"] e →
      e = .node .sub (.num "6") (.node .mul (.num "2") (.num "3")) := by
  obtain ⟨hunique, hpair, hchain, hgroups⟩ := postorder_of_sentence
  have hnum : ∀ text, Sentence .factor [num text] (.num text) := .num
  have hsum : Sentence .sum [num "6", op .sub, num "2"] (.node .sub (.num "6") (.num "2")) :=
    .plus (Or.inr rfl) (hnum "6").ofFactor (hnum "2").ofFactor
  have hmixed : Sentence .sum [num "6", op .sub, num "2", op .mul, num "3"]
      (.node .sub (.num "6") (.node .mul (.num "2") (.num "3"))) :=
    (hnum "6").pair (hnum "2") (hnum "3") (o := .sub) (p := .mul)
  refine ⟨?_, ?_, ?_, (hunique hmixed).2⟩
  · have hlinks : ∀ k ∈ [Link.mk .div [num "4"] (.num "4"), ⟨.div, [num "2"], .num "2"⟩],
        Sentence .factor k.tokens k.operand := by
      simp only [List.forall_mem_cons, List.not_mem_nil, false_imp_iff, implies_true, and_true]
      exact ⟨hnum "4", hnum "2"⟩
    exact hchain (hnum "8") hlinks (by decide)
  · exact hpair (hnum "6") (hnum "2") (hnum "3") .sub .mul
  · exact hgroups hsum (hnum "3").ofFactor .mul

end Rpn

end Orders

end DeskCalc
