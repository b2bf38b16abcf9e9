import DeskCalc.Operator

/-!
# DeskCalc.Fault — why an entry has no result

* A `Fault` is a cause with what is needed to name it.
* `Fault.kind` sorts the causes into three kinds, each with a short label.
* `Fault.message` is the sentence shown to the user.
* Steps that may fail are put in a row by `>>=` and by `foldlM`.  `foldlM_invariant`: what every step keeps, a row of
  steps that does not fail keeps.
-/

namespace DeskCalc

/-- A cause for which an entry has no result. -/
inductive Fault where
  | emptyEntry
  | leadingOperator (o : Operator)
  | trailingOperator (o : Operator)
  | oddParens (count : Nat)
  | barredPattern (pattern : String)
  | unexpectedChar (c : Char) (position : Nat)
  | unmatchedClose
  | unclosedOpen
  | parenInRpn
  | unreadableLiteral (text : String)
  | missingOperand (o : Operator)
  | noValue
  | leftoverValues (count : Nat)
  | overflow
deriving DecidableEq

namespace Fault

/-- The three kinds of faults: in the surface of the entry, in its reverse Polish form, in the
size of its value. -/
inductive Kind where
  | surface | rpn | overflow
deriving DecidableEq

/-- The short name of a kind, shown beside the steps. -/
def Kind.label : Kind → String
  | surface => "structure"
  | rpn => "postfixe malformé"
  | overflow => "dépassement"

/-- The kind of a cause. -/
def kind : Fault → Kind
  | emptyEntry | leadingOperator _ | trailingOperator _ | oddParens _ | barredPattern _ | unexpectedChar _ _ =>
    .surface
  | unmatchedClose | unclosedOpen | parenInRpn | unreadableLiteral _ | missingOperand _ | noValue
  | leftoverValues _ => .rpn
  | overflow => .overflow

/-- The short name of the kind of a cause. -/
def label (f : Fault) : String := f.kind.label

/-- What is wrong, without the kind. -/
def detail : Fault → String
  | emptyEntry => "entrée vide"
  | leadingOperator o => "commence par l’opérateur '" ++ o.symbol.toString ++ "'"
  | trailingOperator o => "se termine par l’opérateur '" ++ o.symbol.toString ++ "'"
  | oddParens n => "nombre de parenthèses impair (" ++ n.repr ++ ")"
  | barredPattern p => "motif interdit \"" ++ p ++ "\""
  | unexpectedChar c n => "caractère inattendu '" ++ c.toString ++ "' (position " ++ n.repr ++ ")"
  | unmatchedClose => "parenthèse fermante sans ouvrante"
  | unclosedOpen => "parenthèse ouvrante non fermée"
  | parenInRpn => "parenthèse inattendue en postfixe"
  | unreadableLiteral text => "littéral illisible \"" ++ text ++ "\""
  | missingOperand o => "opérande manquante pour '" ++ o.symbol.toString ++ "'"
  | noValue => "aucune valeur"
  | leftoverValues n => n.repr ++ " valeurs restantes sur la pile"
  | overflow => "résultat infini ou indéterminé"

/-- The sentence shown for a cause. -/
def message (f : Fault) : String :=
  match f.kind with
  | .surface => "expression invalide : " ++ f.detail
  | .rpn => "postfixe malformé : " ++ f.detail
  | .overflow => "dépassement numérique (" ++ f.detail ++ ")"

/-- Two steps in a row succeed if the first does and the second does on its result. -/
theorem bind_eq_ok_iff {α β : Type} {x : Except Fault α} {f : α → Except Fault β} {b : β} :
    x >>= f = .ok b ↔ ∃ a, x = .ok a ∧ f a = .ok b := by
  cases x with
  | error e => exact ⟨(fun h => nomatch h), (fun ⟨_, h, _⟩ => nomatch h)⟩
  | ok a => exact ⟨fun h => ⟨a, rfl, h⟩, fun ⟨_, rfl, h⟩ => h⟩

/-- They fail if the first does, or if it succeeds and the second fails on its result. -/
theorem bind_eq_error_iff {α β : Type} {x : Except Fault α} {f : α → Except Fault β} {g : Fault} :
    x >>= f = .error g ↔ x = .error g ∨ ∃ a, x = .ok a ∧ f a = .error g := by
  cases x with
  | error e =>
    refine ⟨fun h => Or.inl (congrArg Except.error (Except.error.inj h)), ?_⟩
    rintro (h | ⟨_, h, _⟩)
    · exact congrArg Except.error (Except.error.inj h)
    · cases h
  | ok a => exact ⟨fun h => Or.inr ⟨a, rfl, h⟩, fun h => h.elim (fun h => nomatch h) fun ⟨_, rfl, h⟩ => h⟩

/-- What holds before the first step, and after every step if it held before it, holds at the end.  It may speak of
the part of the list that has been taken. -/
theorem foldlM_invariant {α β : Type} {step : β → α → Except Fault β} {P : List α → β → Prop} {as : List α} {b b' : β}
    (h₀ : P [] b) (hstep : ∀ front a b₁ b₂, P front b₁ → step b₁ a = .ok b₂ → P (front ++ [a]) b₂)
    (h : as.foldlM step b = .ok b') : P as b' := by
  induction as generalizing b P with
  | nil =>
    obtain rfl := Except.ok.inj h
    exact h₀
  | cons a as ih =>
    rw [List.foldlM_cons, bind_eq_ok_iff] at h
    obtain ⟨b₁, h₁, h₂⟩ := h
    -- for the rest of the list, the first element counts as taken
    exact ih (P := fun front c => P (a :: front) c) (hstep [] a b b₁ h₀ h₁)
      (fun front a' c c' hc hstep' => hstep (a :: front) a' c c' hc hstep') h₂

end Fault

end DeskCalc
