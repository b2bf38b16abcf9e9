import DeskCalc.Proofs.Stack

/-!
# DeskCalc.Proofs.FirstFault — which fault the computation of a value reports

* On a stack of a given height a token is `Misplaced` or is taken, and a misplaced one has one fault
  (`push_eq_error_iff`).
* The height is the balance of the tokens taken before, so the tokens alone tell where one is misplaced
  (`MisplacedAt`).  A run comes to its end exactly if none is (`exists_stackAfter_iff`), and stops at the first one
  otherwise (`stackAfter_of_misplaced`).
* A token that is taken leaves a value on top of the stack (`ne_nil_of_push`), so only a list without tokens leaves no
  value at all.
* `value_reports_first_fault`: hence the outcome of every list, with the text of the fault.
-/

namespace DeskCalc

/-! ## Misplaced tokens -/

namespace Token

/-- A token that cannot be taken on a stack of some height: a literal without a value, an operator without two
operands, a parenthesis. -/
def Misplaced (height : ℤ) : Token → Prop
  | num text => Literal.value? text = none
  | op _ => height < 2
  | lparen | rparen => True

instance (height : ℤ) : DecidablePred (Misplaced height)
  | num text => inferInstanceAs (Decidable (Literal.value? text = none))
  | op _ => inferInstanceAs (Decidable (height < 2))
  | lparen | rparen => inferInstanceAs (Decidable True)

/-- The fault of a misplaced token. -/
def fault : Token → Fault
  | num text => .unreadableLiteral text
  | op o => .missingOperand o
  | lparen | rparen => .parenInRpn

/-- What is said about a misplaced token. -/
def complaint : Token → String
  | num text => "littéral illisible \"" ++ text ++ "\""
  | op o => "opérande manquante pour '" ++ (op o).text ++ "'"
  | lparen | rparen => "parenthèse inattendue en postfixe"

theorem detail_fault (t : Token) : t.fault.detail = t.complaint := by cases t <;> rfl

end Token

namespace Rpn

open Token Grammar

variable {stack stack' : List Float} {t : Token} {ts front : List Token} {f : Fault} {i : ℕ}

/-! ## One token -/

section OneToken

/-- A token fails exactly if it is misplaced on the stack. -/
theorem push_eq_error_iff : push stack t = .error f ↔ t.Misplaced stack.length ∧ f = t.fault := by
  cases t with
  | num text =>
    rw [push]
    cases h : Literal.value? text with
    | none => simp [Misplaced, fault, h, eq_comm]
    | some x => simp [Misplaced, h]
  | op o =>
    rcases stack with _ | ⟨y, _ | ⟨x, rest⟩⟩
    · simp [push, Misplaced, fault, eq_comm]
    · simp [push, Misplaced, fault, eq_comm]
    · have hheight : ¬((rest.length : ℤ) + 1 + 1 < 2) := by omega
      simp [push, Misplaced, hheight]
  | lparen => simp [push, Misplaced, fault, eq_comm]
  | rparen => simp [push, Misplaced, fault, eq_comm]

/-- A token that is taken leaves a value. -/
theorem ne_nil_of_push (h : push stack t = .ok stack') : stack' ≠ [] := by
  rcases push_cases h with ⟨text, x, -, -, rfl⟩ | ⟨o, x, y, rest, -, -, rfl⟩
  · exact List.cons_ne_nil _ _
  · exact List.cons_ne_nil _ _

end OneToken

/-! ## Positions -/

section Positions

/-- The token at a position is misplaced behind the tokens before it. -/
def MisplacedAt (ts : List Token) (i : ℕ) : Prop := ∃ t ∈ ts[i]?, t.Misplaced (balance (ts.take i))

instance (ts : List Token) (i : ℕ) : Decidable (MisplacedAt ts i) :=
  inferInstanceAs (Decidable (∃ t ∈ ts[i]?, t.Misplaced (balance (ts.take i))))

theorem misplacedAt_append_of_lt (hi : i < front.length) (back : List Token) :
    MisplacedAt (front ++ back) i ↔ MisplacedAt front i := by
  rw [MisplacedAt, MisplacedAt, List.getElem?_append_left hi, List.take_append_of_le_length hi.le]

theorem misplacedAt_length_iff (front : List Token) (t : Token) (back : List Token) :
    MisplacedAt (front ++ t :: back) front.length ↔ t.Misplaced (balance front) := by
  simp [MisplacedAt]

theorem MisplacedAt.lt_length (h : MisplacedAt ts i) : i < ts.length := by
  obtain ⟨t, hi, -⟩ := h
  exact (List.getElem?_eq_some_iff.mp hi).1

theorem forall_not_misplacedAt_concat_iff (ts : List Token) (t : Token) :
    (∀ i, ¬MisplacedAt (ts ++ [t]) i) ↔ (∀ i, ¬MisplacedAt ts i) ∧ ¬t.Misplaced (balance ts) := by
  constructor
  · intro h
    refine ⟨fun i hi => ?_, fun ht => h ts.length ((misplacedAt_length_iff ts t []).mpr ht)⟩
    exact h i ((misplacedAt_append_of_lt hi.lt_length [t]).mpr hi)
  · rintro ⟨hts, ht⟩ i hi
    have hlt : i < ts.length + 1 := by simpa using hi.lt_length
    rcases Nat.lt_succ_iff_lt_or_eq.mp hlt with hi' | rfl
    · exact hts i ((misplacedAt_append_of_lt hi' [t]).mp hi)
    · exact ht ((misplacedAt_length_iff ts t []).mp hi)

end Positions

/-! ## Runs -/

section Runs

/-- The height of the stack is the balance of the tokens taken. -/
theorem length_stackAfter_nil (h : stackAfter [] ts = .ok stack) : (stack.length : ℤ) = balance ts := by
  simpa using length_stackAfter h

theorem stackAfter_concat (stack : List Float) (ts : List Token) (t : Token) :
    stackAfter stack (ts ++ [t]) = stackAfter stack ts >>= fun stack => push stack t := by
  simp [stackAfter]

/-- **A run comes to its end** exactly if no token is misplaced. -/
theorem exists_stackAfter_iff : (∃ stack, stackAfter [] ts = .ok stack) ↔ ∀ i, ¬MisplacedAt ts i := by
  induction ts using List.reverseRecOn with
  | nil => simp [MisplacedAt]
  | append_singleton ts t ih =>
    rw [forall_not_misplacedAt_concat_iff, ← ih, stackAfter_concat]
    constructor
    · rintro ⟨stack, h⟩
      obtain ⟨stack₁, h₁, h₂⟩ := Fault.bind_eq_ok_iff.mp h
      refine ⟨⟨stack₁, h₁⟩, fun ht => ?_⟩
      rw [← length_stackAfter_nil h₁] at ht
      rw [push_eq_error_iff.mpr ⟨ht, rfl⟩] at h₂
      cases h₂
    · rintro ⟨⟨stack₁, h₁⟩, ht⟩
      rw [← length_stackAfter_nil h₁] at ht
      cases h₂ : push stack₁ t with
      | error f => exact absurd (push_eq_error_iff.mp h₂).1 ht
      | ok stack => exact ⟨stack, Fault.bind_eq_ok_iff.mpr ⟨stack₁, h₁, h₂⟩⟩

/-- **A run stops at the first misplaced token**, whatever comes after it. -/
theorem stackAfter_of_misplaced (hfront : ∀ i, ¬MisplacedAt front i) (ht : t.Misplaced (balance front))
    (back : List Token) : stackAfter [] (front ++ t :: back) = .error t.fault := by
  obtain ⟨stack, h⟩ := exists_stackAfter_iff.mpr hfront
  rw [← length_stackAfter_nil h] at ht
  rw [stackAfter_append, h]
  show stackAfter stack (t :: back) = _
  rw [stackAfter_cons, push_eq_error_iff.mpr ⟨ht, rfl⟩]
  rfl

/-- Tokens that are taken leave a value. -/
theorem balance_pos (h : stackAfter [] ts = .ok stack) (hne : ts ≠ []) : 1 ≤ balance ts := by
  rcases List.eq_nil_or_concat' ts with rfl | ⟨front, t, rfl⟩
  · exact absurd rfl hne
  · have hheight := length_stackAfter_nil h
    rw [stackAfter_concat] at h
    obtain ⟨stack₁, -, h₂⟩ := Fault.bind_eq_ok_iff.mp h
    have hpos := List.length_pos_iff.mpr (ne_nil_of_push h₂)
    omega

end Runs

/-! ## Outcomes -/

section Outcomes

/-- The computation fails in the reverse Polish form, with a text. -/
def FailsWith (ts : List Token) (text : String) : Prop := ∃ f, value ts = .error f ∧ f.kind = .rpn ∧ f.detail = text

theorem failsWith_of_error (h : value ts = .error f) : FailsWith ts f.detail := ⟨f, h, kind_of_value h, rfl⟩

theorem value_of_stackAfter (h : stackAfter [] ts = .ok stack) : value ts = only stack := by
  rw [value, h]
  rfl

theorem value_of_misplaced (hi : ts[i]? = some t) (ht : t.Misplaced (balance (ts.take i)))
    (hfirst : ∀ j < i, ¬MisplacedAt ts j) : value ts = .error t.fault := by
  obtain ⟨hlt, hget⟩ := List.getElem?_eq_some_iff.mp hi
  have hsplit : ts.take i ++ t :: ts.drop (i + 1) = ts := by
    rw [← hget]
    simp
  have hfront : ∀ j, ¬MisplacedAt (ts.take i) j := by
    intro j hj
    have hj' : j < i := hj.lt_length.trans_le (List.length_take_le i ts)
    refine hfirst j hj' ?_
    rw [← hsplit]
    exact (misplacedAt_append_of_lt hj.lt_length _).mpr hj
  have herror := stackAfter_of_misplaced hfront ht (ts.drop (i + 1))
  rw [hsplit] at herror
  rw [value, herror]
  rfl

theorem only_of_two_le {k : ℕ} (h : stack.length = k) (hk : 2 ≤ k) : only stack = .error (.leftoverValues k) := by
  subst h
  rcases stack with _ | ⟨x, _ | ⟨y, rest⟩⟩
  · simp at hk
  · simp at hk
  · rfl

theorem exists_only_eq_ok_iff : (∃ x, only stack = .ok x) ↔ stack.length = 1 := by
  rw [List.length_eq_one_iff]
  exact exists_congr fun x => only_eq_ok_iff

/-- Some values left are not told as none left. -/
theorem detail_leftoverValues_ne (k : ℕ) : (Fault.leftoverValues k).detail ≠ Fault.noValue.detail := by
  intro h
  have hlength : (k.repr ++ " valeurs restantes sur la pile").length = "aucune valeur".length := congrArg String.length h
  have hwords : " valeurs restantes sur la pile".length = 30 := by decide
  have hnone : "aucune valeur".length = 13 := by decide
  rw [String.length_append, hwords, hnone] at hlength
  omega

/-- **The first fault is reported**, and what is left over is counted.  The first misplaced token decides, whatever
comes after it.  If no token is misplaced, there is no value exactly if there are no tokens; otherwise the balance is at
least one, there is a value if it is one, and if it is more the fault names it. -/
theorem value_reports_first_fault (ts : List Token) :
    (∀ i t, ts[i]? = some t → t.Misplaced (balance (ts.take i)) → (∀ j < i, ¬MisplacedAt ts j) →
      FailsWith ts t.complaint) ∧
    ((∀ i, ¬MisplacedAt ts i) →
      (FailsWith ts "aucune valeur" ↔ ts = []) ∧
      (ts ≠ [] → 1 ≤ balance ts ∧ ((∃ x, value ts = .ok x) ↔ balance ts = 1) ∧
        ∀ k : ℕ, 2 ≤ k → balance ts = k → FailsWith ts (k.repr ++ " valeurs restantes sur la pile"))) := by
  constructor
  · intro i t hi ht hfirst
    rw [← detail_fault]
    exact failsWith_of_error (value_of_misplaced hi ht hfirst)
  · intro hnone
    obtain ⟨stack, hstack⟩ := exists_stackAfter_iff.mpr hnone
    have hvalue := value_of_stackAfter hstack
    have hheight := length_stackAfter_nil hstack
    have hleft : ∀ k : ℕ, 2 ≤ k → balance ts = k → value ts = .error (.leftoverValues k) := by
      intro k hk hb
      rw [hvalue]
      exact only_of_two_le (by omega) hk
    have hone : (∃ x, value ts = .ok x) ↔ balance ts = 1 := by
      rw [hvalue, exists_only_eq_ok_iff]
      omega
    refine ⟨⟨?_, ?_⟩, fun hne => ⟨balance_pos hstack hne, hone, fun k hk hb => failsWith_of_error (hleft k hk hb)⟩⟩
    · rintro ⟨f, hf, -, htext⟩
      by_contra hne
      have hpos := balance_pos hstack hne
      by_cases hb : balance ts = 1
      · obtain ⟨x, hx⟩ := hone.mpr hb
        rw [hx] at hf
        cases hf
      · have hmany := hleft stack.length (by omega) hheight.symm
        rw [hmany] at hf
        obtain rfl := Except.error.inj hf
        exact detail_leftoverValues_ne _ htext
    · rintro rfl
      have hempty : value [] = .error .noValue := rfl
      exact failsWith_of_error hempty

/-- The second operator finds one operand only, and the literal behind it is not read any more.  Two literals are two
values. -/
theorem value_reports_first_fault_lone_operand :
    [num "7", num "1", op .add, op .mul, num "1.2.3"][3]? = some (op .mul) ∧
    (op .mul).Misplaced (balance [num "7", num "1", op .add]) ∧
    (∀ j < 3, ¬MisplacedAt [num "7", num "1", op .add, op .mul, num "1.2.3"] j) ∧
    FailsWith [num "7", num "1", op .add, op .mul, num "1.2.3"] "opérande manquante pour '*'" ∧
    (∀ i, ¬MisplacedAt [num "7", num "1"] i) ∧ FailsWith [num "7", num "1"] "2 valeurs restantes sur la pile" := by
  have ht : (op .mul).Misplaced (balance [num "7", num "1", op .add]) := by decide
  have hfirst : ∀ j < 3, ¬MisplacedAt [num "7", num "1", op .add, op .mul, num "1.2.3"] j := by decide
  have htwo : ∀ i < 2, ¬MisplacedAt [num "7", num "1"] i := by decide
  have hnone : ∀ i, ¬MisplacedAt [num "7", num "1"] i := fun i hi => htwo i hi.lt_length hi
  have hleft := (value_reports_first_fault [num "7", num "1"]).2 hnone
  exact ⟨rfl, ht, hfirst, (value_reports_first_fault _).1 3 (op .mul) rfl ht hfirst, hnone,
    (hleft.2 (List.cons_ne_nil _ _)).2.2 2 (le_refl 2) rfl⟩

end Outcomes

end Rpn

end DeskCalc
