import DeskCalc.Proofs.Yard
import Mathlib.Data.List.Chain

/-!
# DeskCalc.Proofs.Alternation — sentences without their trees

* A list of tokens is a sentence exactly if operands and operators take turns in it (`Alternates`) and its
  parentheses match (`spells_iff`).  So a derivation can be read off from left to right.
* `balance` counts literals against operators.  Where no operand follows another one directly (`OperandsApart`), a
  list with one literal more than it has operators alternates (`alternates_of_balance`): each misplaced operator,
  each empty group lowers the balance, and nothing can raise it again.
-/

namespace DeskCalc

open Token Grammar

namespace Token

/-- The first tokens of operands. -/
def opensOperand : Token → Bool
  | num _ | lparen => true
  | op _ | rparen => false

/-- The last tokens of operands. -/
def closesOperand : Token → Bool
  | num _ | rparen => true
  | op _ | lparen => false

/-- What a token adds to the number of values. -/
def weight : Token → ℤ
  | num _ => 1
  | op _ => -1
  | lparen | rparen => 0

/-- A token that opens an operand adds half a value, and so does one that closes it; it takes half a value else. -/
theorem weight_eq (t : Token) : t.weight = t.opensOperand.toNat + t.closesOperand.toNat - 1 := by
  cases t with
  | num text => rfl
  | op o => rfl
  | lparen => rfl
  | rparen => rfl

end Token

namespace Grammar

variable {level : Level} {ts us : List Token} {e : Expr} {b : Bool}

/-! ## Taking turns -/

/-- The tokens go on as an expression does: an operand comes where none stands before (`false`), an operator or a
closing parenthesis where one does (`true`), and one stands at the end. -/
def Alternates : Bool → List Token → Prop
  | operand, [] => operand = true
  | operand, t :: ts => operand = !t.opensOperand ∧ Alternates t.closesOperand ts

@[simp] theorem alternates_nil : Alternates b [] ↔ b = true := Iff.rfl

@[simp] theorem alternates_num {text : String} :
    Alternates b (num text :: ts) ↔ b = false ∧ Alternates true ts := Iff.rfl

@[simp] theorem alternates_op {o : Operator} : Alternates b (op o :: ts) ↔ b = true ∧ Alternates false ts := Iff.rfl

@[simp] theorem alternates_lparen : Alternates b (lparen :: ts) ↔ b = false ∧ Alternates false ts := Iff.rfl

@[simp] theorem alternates_rparen : Alternates b (rparen :: ts) ↔ b = true ∧ Alternates true ts := Iff.rfl

theorem Alternates.suffix (h : Alternates b ts) (hs : us <:+ ts) : ∃ b', Alternates b' us := by
  obtain ⟨pre, rfl⟩ := hs
  induction pre generalizing b with
  | nil => exact ⟨b, h⟩
  | cons t pre ih => exact ih h.2

theorem Alternates.head?_ne_op (h : Alternates false ts) (o : Operator) : ts.head? ≠ some (op o) := by
  rintro ho
  obtain ⟨us, rfl⟩ := List.head?_eq_some_iff.mp ho
  exact absurd h.1 (by simp [opensOperand])

theorem Alternates.getLast?_ne_op (h : Alternates b ts) (o : Operator) : ts.getLast? ≠ some (op o) := by
  rintro ho
  obtain ⟨pre, hpre⟩ := List.getLast?_eq_some_iff.mp ho
  have hlast : [op o] <:+ ts := ⟨pre, hpre.symm⟩
  obtain ⟨b', hb'⟩ := h.suffix hlast
  simp at hb'

/-- Only the end of an operand stands before an operator. -/
theorem Alternates.closesOperand_before {o : Operator} (h : Alternates false (ts ++ op o :: us)) :
    ∃ t ∈ ts.getLast?, t.closesOperand = true := by
  rcases List.eq_nil_or_concat' ts with rfl | ⟨front, t, rfl⟩
  · simp at h
  · have hsuffix : t :: op o :: us <:+ front ++ [t] ++ op o :: us := ⟨front, by simp⟩
    obtain ⟨b', -, hturn, -⟩ := h.suffix hsuffix
    exact ⟨t, by simp, hturn⟩

/-- No operand follows another one directly. -/
def OperandsApart (ts : List Token) : Prop :=
  ts.IsChain fun t u => ¬(t.closesOperand = true ∧ u.opensOperand = true)

instance (ts : List Token) : Decidable (OperandsApart ts) := inferInstanceAs (Decidable (List.IsChain _ ts))

/-- A sentence is one operand. -/
theorem Sentence.alternates_append (h : Sentence level ts e) (us : List Token) :
    Alternates false (ts ++ us) ↔ Alternates true us := by
  induction h generalizing us with
  | num text => simp
  | group _ ih => simp [ih]
  | factor _ ih => exact ih us
  | product _ ih => exact ih us
  | times _ _ _ ihl ihr => simp [ihl, ihr]
  | plus _ _ _ ihl ihr => simp [ihl, ihr]

theorem Sentence.alternates (h : Sentence level ts e) : Alternates false ts := by
  rw [← List.append_nil ts, h.alternates_append]
  rfl

theorem Alternates.operandsApart (h : Alternates b ts) : OperandsApart ts := by
  induction ts generalizing b with
  | nil => exact List.IsChain.nil
  | cons t ts ih =>
    obtain ⟨-, hts⟩ := h
    cases ts with
    | nil => exact List.IsChain.singleton t
    | cons u us =>
      refine List.isChain_cons_cons.mpr ⟨?_, ih hts⟩
      rintro ⟨hc, ho⟩
      have hturn : t.closesOperand = !u.opensOperand := hts.1
      rw [hc, ho] at hturn
      exact absurd hturn (by decide)

/-! ## Counting -/

section Balance

/-- The number of literals less the number of operators. -/
def balance : List Token → ℤ
  | [] => 0
  | t :: ts => t.weight + balance ts

@[simp] theorem balance_nil : balance [] = 0 := rfl

@[simp] theorem balance_cons (t : Token) (ts : List Token) : balance (t :: ts) = t.weight + balance ts := rfl

theorem balance_append (ts us : List Token) : balance (ts ++ us) = balance ts + balance us := by
  induction ts with
  | nil => simp
  | cons t ts ih =>
    rw [List.cons_append, balance_cons, balance_cons, ih]
    omega

theorem balance_perm (h : ts.Perm us) : balance ts = balance us := by
  induction h with
  | nil => rfl
  | cons t _ ih => rw [balance_cons, balance_cons, ih]
  | swap t u ts =>
    simp only [balance_cons]
    omega
  | trans _ _ ih₁ ih₂ => exact ih₁.trans ih₂

theorem balance_filter (ts : List Token) : balance (ts.filter fun t => !t.isParen) = balance ts := by
  induction ts with
  | nil => rfl
  | cons t ts ih =>
    rw [List.filter_cons]
    cases t <;> simpa [isParen, weight] using ih

/-- The order keeps the balance. -/
theorem balance_of_ofTokens {rpn : List Token} (h : Rpn.ofTokens ts = .ok rpn) : balance rpn = balance ts :=
  (balance_perm (Rpn.perm_of_ofTokens h)).trans (balance_filter ts)

/-- An operand stands before `ts`, and its first token does not start another one. -/
def Parted (b : Bool) (ts : List Token) : Prop := b = true → ∀ t ∈ ts.head?, t.opensOperand = false

theorem OperandsApart.parted {t : Token} (h : OperandsApart (t :: ts)) : Parted t.closesOperand ts := by
  intro hc u hu
  have hapart := (List.isChain_cons.mp h).1 u hu
  simpa [hc] using hapart

/-- Of the operand before the tokens and the one that they start with, there is one at most. -/
theorem Parted.toNat_add_le {t : Token} (h : Parted b (t :: ts)) : b.toNat + t.opensOperand.toNat ≤ 1 := by
  cases b with
  | false =>
    rw [Bool.toNat_false, Nat.zero_add]
    exact Bool.toNat_le _
  | true => rw [h rfl t rfl, Bool.toNat_true, Bool.toNat_false]

/-- With the operand before it, a list leaves at most one operand more than it uses. -/
theorem balance_le (hp : Parted b ts) (ha : OperandsApart ts) : balance ts ≤ 1 - b.toNat := by
  induction ts generalizing b with
  | nil =>
    have hle := Bool.toNat_le b
    rw [balance_nil]
    omega
  | cons t ts ih =>
    have hts := ih ha.parted ha.tail
    have hle := hp.toNat_add_le
    rw [balance_cons, weight_eq]
    omega

/-- If it leaves exactly one, every operator stands between two operands and no group is empty. -/
theorem alternates_of_balance (hp : Parted b ts) (ha : OperandsApart ts) (hb : balance ts = 1 - b.toNat) :
    Alternates b ts := by
  induction ts generalizing b with
  | nil =>
    rw [balance_nil] at hb
    have hone : b.toNat = 1 := by omega
    exact Bool.toNat_eq_one.mp hone
  | cons t ts ih =>
    have hapart := hp.toNat_add_le
    have hle := balance_le ha.parted ha.tail
    rw [balance_cons, weight_eq] at hb
    -- an operator or a closing parenthesis without an operand before it would leave too few
    have hturn : b.toNat + t.opensOperand.toNat = 1 := by omega
    have hopen : b = !t.opensOperand := by
      cases ho : t.opensOperand with
      | false =>
        rw [ho, Bool.toNat_false, Nat.add_zero] at hturn
        exact Bool.toNat_eq_one.mp hturn
      | true =>
        rw [ho, Bool.toNat_true, Nat.add_eq_right] at hturn
        exact Bool.toNat_eq_zero.mp hturn
    have hrest : balance ts = 1 - t.closesOperand.toNat := by omega
    exact ⟨hopen, ih ha.parted ha.tail hrest⟩

end Balance

/-! ## From turns to trees -/

section Derivation

/-- The tokens are a sentence. -/
def Spells (ts : List Token) : Prop := ∃ e, Sentence .sum ts e

/-- Any factor completes the tokens to a sentence. -/
def Awaits (ts : List Token) : Prop := ∀ us e, Sentence .factor us e → Spells (ts ++ us)

theorem awaits_nil : Awaits [] := fun _ e h => ⟨e, .product (.factor h)⟩

/-- A tight operator after a sentence works on its last product, a loose one on the whole of it. -/
theorem Spells.awaits (h : Spells ts) (o : Operator) : Awaits (ts ++ [op o]) := by
  obtain ⟨e, he⟩ := h
  intro us r hr
  have happ : ts ++ [op o] ++ us = ts ++ op o :: us := by simp
  rw [happ]
  have ho : (o = .add ∨ o = .sub) ∨ (o = .mul ∨ o = .div) := by cases o <;> simp
  rcases ho with ho | ho
  · exact ⟨_, .plus ho he (.factor hr)⟩
  · cases he with
    | product hp => exact ⟨_, .product (.times ho hp hr)⟩
    | @plus p ts₁ us₁ l _ hp hl hlast =>
      have hassoc : ts₁ ++ op p :: us₁ ++ op o :: us = ts₁ ++ op p :: (us₁ ++ op o :: us) := by simp
      rw [hassoc]
      exact ⟨_, .plus hp hl (.times ho hlast hr)⟩

/-- The tokens of the open groups, from the inside out, put together. -/
def joined : List (List Token) → List Token → List Token
  | [], g => g
  | outer :: gs, g => joined gs (outer ++ lparen :: g)

theorem joined_append (gs : List (List Token)) (g us : List Token) : joined gs (g ++ us) = joined gs g ++ us := by
  induction gs generalizing g with
  | nil => rfl
  | cons outer gs ih => simp only [joined, ← ih, List.append_assoc, List.cons_append]

/-- What has been read of the innermost group: a sentence after an operand, a sentence but for a factor before one. -/
def Underway : Bool → List Token → Prop
  | true, g => Spells g
  | false, g => Awaits g

/-- Reading from left to right, with one group begun for each parenthesis that is open in the yard. -/
theorem spells_joined {y y' : Rpn.Yard} {gs : List (List Token)} {g : List Token} (h : y.after ts = .ok y')
    (he : y'.enclosing = []) (hlen : y.enclosing.length = gs.length) (hgs : ∀ g ∈ gs, Awaits g)
    (hg : Underway b g) (ha : Alternates b ts) : Spells (joined gs g ++ ts) := by
  induction ts generalizing y gs g b with
  | nil =>
    obtain rfl := Except.ok.inj h
    have hnil : gs = [] := List.length_eq_zero_iff.mp (by rw [← hlen, he]; rfl)
    subst hnil
    obtain rfl : b = true := ha
    simpa [joined, Underway] using hg
  | cons t ts ih =>
    rw [Rpn.Yard.after_cons, Fault.bind_eq_ok_iff] at h
    obtain ⟨y₁, h₁, h₂⟩ := h
    have hsplit : joined gs g ++ t :: ts = joined gs (g ++ [t]) ++ ts := by simp [joined_append]
    cases t with
    | num text =>
      obtain ⟨rfl, ha⟩ := ha
      obtain rfl := Except.ok.inj h₁
      rw [hsplit]
      exact ih h₂ hlen hgs (b := true) (hg [num text] _ (.num text)) ha
    | op o =>
      obtain ⟨rfl, ha⟩ := ha
      obtain rfl := Except.ok.inj h₁
      rw [hsplit]
      exact ih h₂ hlen hgs (b := false) (Spells.awaits hg o) ha
    | lparen =>
      obtain ⟨rfl, ha⟩ := ha
      obtain rfl := Except.ok.inj h₁
      rw [hsplit]
      have houter : ∀ g' ∈ g :: gs, Awaits g' := List.forall_mem_cons.mpr ⟨hg, hgs⟩
      exact ih (b := false) (g := []) h₂ (by simpa using hlen) houter awaits_nil ha
    | rparen =>
      obtain ⟨rfl, ha⟩ := ha
      obtain ⟨written, waiting, enclosing⟩ := y
      cases enclosing with
      | nil => simp [Rpn.Yard.step] at h₁
      | cons os rest =>
        obtain rfl := Except.ok.inj h₁
        obtain ⟨outer, gs, rfl⟩ := List.exists_cons_of_length_eq_add_one hlen.symm
        obtain ⟨e, hspell⟩ : Spells g := hg
        have hclosed : joined (outer :: gs) g ++ rparen :: ts =
            joined gs (outer ++ lparen :: (g ++ [rparen])) ++ ts := by
          simp [joined, joined_append]
        rw [hclosed]
        refine ih (b := true) h₂ (by simpa using hlen) (fun g hg => hgs g (List.mem_cons_of_mem _ hg)) ?_ ha
        exact hgs outer (List.mem_cons_self ..) _ e (.group hspell)

/-- **Sentences without trees**: turns are taken and the parentheses match. -/
theorem spells_iff : Spells ts ↔ Alternates false ts ∧ ∃ rpn, Rpn.ofTokens ts = .ok rpn := by
  constructor
  · rintro ⟨e, h⟩
    exact ⟨h.alternates, e.rpn, Rpn.ofTokens_sentence h⟩
  · rintro ⟨ha, rpn, h⟩
    rw [Rpn.ofTokens_eq, Fault.bind_eq_ok_iff] at h
    obtain ⟨y, h₁, h₂⟩ := h
    have he : y.enclosing = [] := by
      by_contra hne
      simp [Rpn.Yard.finish, hne] at h₂
    have hgs : ∀ g ∈ ([] : List (List Token)), Awaits g := by simp
    exact spells_joined (b := false) (g := []) h₁ he rfl hgs awaits_nil ha

end Derivation

end Grammar

end DeskCalc
