import DeskCalc.Proofs.Display
import DeskCalc.Proofs.Focus
import DeskCalc.Proofs.Seam
import DeskCalc.Proofs.Stage

/-!
# DeskCalc.Proofs.Agreement — an entry and the entry without the blanks at its ends

* The panel evaluates the entry without the blanks at its ends.  Only a fault with a position can tell: the positions
  are those of the trimmed text, behind the blanks at the start (`tokenize_eq_mapError`, `evaluate_eq_mapError`).
* `Panel.equals_agrees`: so a click on `=` shows the outcome of the entry itself, but for such a position.
-/

namespace DeskCalc

open Text Token

variable {s : String} {f : Fault} {c : Char} {n i : ℕ}

/-- The number of blanks at the start of a text. -/
def leadingBlanks (s : String) : ℕ := (s.toList.takeWhile isBlank).length

/-! ## Faults with a position -/

namespace Fault

theorem label_moved (n : ℕ) (f : Fault) : (f.moved n).label = f.label := by
  cases f <;> rfl

theorem moved_eq_unexpectedChar (h : f.moved n = .unexpectedChar c i) :
    n ≤ i ∧ f = .unexpectedChar c (i - n) := by
  cases f with
  | unexpectedChar d j =>
    obtain ⟨rfl, rfl⟩ := Fault.unexpectedChar.inj h
    exact ⟨Nat.le_add_left n j, by rw [Nat.add_sub_cancel]⟩
  | _ => cases h

theorem moved_of_ne (h : ∀ c i, f ≠ .unexpectedChar c i) : f.moved n = f := by
  cases f with
  | unexpectedChar c i => exact absurd rfl (h c i)
  | _ => rfl

theorem moved_of_kind (h : f.kind ≠ .surface) : f.moved n = f := by
  refine moved_of_ne ?_
  rintro c i rfl
  exact h rfl

/-- What is done to faults leaves results alone. -/
theorem mapError_eq_ok_iff {α : Type} {x : Except Fault α} {g : Fault → Fault} {a : α} :
    x.mapError g = .ok a ↔ x = .ok a := by
  cases x <;> simp [Except.mapError]

theorem mapError_eq_error_iff {α : Type} {x : Except Fault α} {g : Fault → Fault} :
    x.mapError g = .error f ↔ ∃ e, x = .error e ∧ g e = f := by
  cases x <;> simp [Except.mapError]

theorem moved_of_check (h : Surface.check s = .error f) : f.moved n = f := by
  rcases Surface.cases_of_check h with rfl | ⟨o, rfl⟩ | ⟨o, rfl⟩ | ⟨k, rfl⟩ | ⟨p, rfl⟩ <;> rfl

end Fault

/-! ## Entries without the blanks at their ends -/

section Trimmed

/-- Blanks around a text leave its tokens as they are, and those before it move its fault. -/
theorem tokenize_between_blanks {before after : String} (hb : ∀ c ∈ before.toList, isBlank c = true)
    (ha : ∀ c ∈ after.toList, isBlank c = true) (s : String) :
    tokenize (before ++ (s ++ after)) = (tokenize s).mapError (Fault.moved before.length) := by
  have hbefore := tokenize_blanks hb
  have hafter := tokenize_blanks ha
  cases h : tokenize s with
  | error f =>
    obtain ⟨c, i, rfl⟩ := exists_unexpectedChar_of_tokenize h
    exact tokenize_append_of_ok_of_error hbefore (tokenize_append_of_error h after)
  | ok ts =>
    have hfront : ¬NumeralSeam before (s ++ after) := not_numeralSeam_iff.mpr (Or.inl (getLast?_blanks hb))
    have hback : ¬NumeralSeam s after := not_numeralSeam_iff.mpr (Or.inr (head?_blanks ha))
    have hcut := tokenize_append_of_apart hfront hbefore (tokenize_append_of_apart hback h hafter)
    rwa [List.nil_append, List.append_nil] at hcut

/-- A text is its trimmed text with blanks around it. -/
theorem exists_between_blanks (s : String) :
    ∃ before after : String, s = before ++ (trimmed s ++ after) ∧ before.length = leadingBlanks s ∧
      (∀ c ∈ before.toList, isBlank c = true) ∧ ∀ c ∈ after.toList, isBlank c = true := by
  refine ⟨String.ofList (s.toList.takeWhile isBlank),
    String.ofList ((s.toList.dropWhile isBlank).rtakeWhile isBlank), ?_, String.length_ofList, ?_, ?_⟩
  · rw [← String.toList_inj]
    simp only [String.toList_append, String.toList_ofList, toList_trimmed, ← List.append_assoc]
    exact takeWhile_append_trim s.toList
  · rw [String.toList_ofList]
    exact fun c hc => List.mem_takeWhile_imp hc
  · rw [String.toList_ofList]
    exact fun c hc => List.mem_rtakeWhile_imp hc

/-- The tokens are those of the trimmed text, and so is the first unknown character, behind the blanks. -/
theorem tokenize_eq_mapError (s : String) :
    tokenize s = (tokenize (trimmed s)).mapError (Fault.moved (leadingBlanks s)) := by
  obtain ⟨before, after, hs, hlength, hb, ha⟩ := exists_between_blanks s
  calc tokenize s = tokenize (before ++ (trimmed s ++ after)) := congrArg tokenize hs
    _ = (tokenize (trimmed s)).mapError (Fault.moved before.length) := tokenize_between_blanks hb ha (trimmed s)
    _ = (tokenize (trimmed s)).mapError (Fault.moved (leadingBlanks s)) := by rw [hlength]

/-- Past the tokens no fault is one of the surface. -/
theorem kind_ne_surface_of_tokens (h : (Rpn.ofTokens ts >>= Working.outcomeOf) = .error f) : f.kind ≠ .surface := by
  rcases Fault.bind_eq_error_iff.mp h with horder | ⟨rpn, -, hvalue⟩
  · rw [Rpn.kind_of_ofTokens horder]
    decide
  · rcases Fault.bind_eq_error_iff.mp hvalue with hvalue | ⟨x, -, htext⟩
    · rw [Rpn.kind_of_value hvalue]
      decide
    · unfold finiteText at htext
      split_ifs at htext
      rw [← Except.error.inj htext]
      decide

/-- **Blanks at the ends** of an entry show in the position of an unknown character only. -/
theorem evaluate_eq_mapError (s : String) :
    evaluate s = (evaluate (trimmed s)).mapError (Fault.moved (leadingBlanks s)) := by
  rw [evaluate_eq s, evaluate_eq (trimmed s), Working.tokensOf, Working.tokensOf, Surface.check_trimmed]
  cases hc : Surface.check s with
  | error f => exact congrArg Except.error (Fault.moved_of_check hc).symm
  | ok u =>
    have ht := tokenize_eq_mapError s
    cases htrim : tokenize (trimmed s) with
    | error g =>
      rw [htrim] at ht
      rw [ht]
      rfl
    | ok ts =>
      rw [htrim] at ht
      rw [ht]
      show (Rpn.ofTokens ts >>= Working.outcomeOf) = (Rpn.ofTokens ts >>= Working.outcomeOf).mapError _
      cases hout : Rpn.ofTokens ts >>= Working.outcomeOf with
      | ok r => rfl
      | error f => exact congrArg Except.error (Fault.moved_of_kind (kind_ne_surface_of_tokens hout)).symm

theorem evaluate_trimmed_of_ok {r : String} (h : evaluate s = .ok r) : evaluate (trimmed s) = .ok r := by
  rw [evaluate_eq_mapError] at h
  exact Fault.mapError_eq_ok_iff.mp h

theorem evaluate_trimmed_of_error (h : evaluate s = .error f) :
    ∃ g, evaluate (trimmed s) = .error g ∧ g.moved (leadingBlanks s) = f := by
  rw [evaluate_eq_mapError] at h
  exact Fault.mapError_eq_error_iff.mp h

end Trimmed

/-! ## The panel -/

namespace Panel

section Equals

/-- **The panel agrees with the evaluation of its entry.**  A click on `=` leaves the entry and shows its result, or its
fault beside the result of an earlier evaluation; only the position of an unknown character is counted without the blanks
at the start of the entry. -/
theorem equals_agrees (p : Panel) :
    (p.act (.click .equals)).entry = p.entry ∧
    (∀ r, DeskCalc.evaluate p.entry = .ok r →
      (p.act (.click .equals)).result = r ∧ (p.act (.click .equals)).error = "") ∧
    ∀ f, DeskCalc.evaluate p.entry = .error f →
      (p.act (.click .equals)).result = p.result ∧ (p.act (.click .equals)).steps.fault = f.label ∧
      ((∀ c i, f ≠ .unexpectedChar c i) → (p.act (.click .equals)).error = f.message) ∧
      ∀ c i, f = .unexpectedChar c i → leadingBlanks p.entry ≤ i ∧
        (p.act (.click .equals)).error = (Fault.unexpectedChar c (i - leadingBlanks p.entry)).message := by
  have hshows := p.shows_equals
  have hentered : (p.act (.click .equals)).entry = p.entry := p.drawEntry.entry_evaluate
  have hkept : ∀ g, DeskCalc.evaluate (trimmed p.entry) = .error g → (p.act (.click .equals)).result = p.result :=
    fun g => result_act_of_error rfl
  generalize p.act (.click .equals) = p' at hshows hentered hkept ⊢
  refine ⟨hentered, fun r hr => ?_, fun f hf => ?_⟩
  · obtain ⟨hresult, herror, -⟩ := hshows.result r (evaluate_trimmed_of_ok hr)
    exact ⟨hresult, herror⟩
  · obtain ⟨g, hg, rfl⟩ := evaluate_trimmed_of_error hf
    obtain ⟨herror, hlabel⟩ := hshows.fault g hg
    rw [Fault.label_moved, herror]
    refine ⟨hkept g hg, hlabel, fun hother => ?_, fun c i hchar => ?_⟩
    · rw [Fault.moved_of_ne]
      rintro c i rfl
      exact hother c _ rfl
    · obtain ⟨hle, rfl⟩ := Fault.moved_eq_unexpectedChar hchar
      exact ⟨hle, rfl⟩

/-- A sum with blanks around it, and a foreign character behind two blanks and a digit. -/
theorem equals_agrees_spaced :
    DeskCalc.evaluate " 1+2 " = .ok "3" ∧
    (({ initial with entry := " 1+2 " } : Panel).act (.click .equals)).result = "3" ∧
    DeskCalc.evaluate "\u2003 2$3" = .error (.unexpectedChar '$' 3) ∧
    (({ initial with entry := "\u2003 2$3", result := "7" } : Panel).act (.click .equals)).result = "7" ∧
    (({ initial with entry := "\u2003 2$3", result := "7" } : Panel).act (.click .equals)).error =
      (Fault.unexpectedChar '$' 1).message := by
  have hsum : DeskCalc.evaluate " 1+2 " = .ok "3" := by decide +kernel
  have hchar : DeskCalc.evaluate "\u2003 2$3" = .error (.unexpectedChar '$' 3) := by decide +kernel
  have hblanks : leadingBlanks "\u2003 2$3" = 2 := by decide +kernel
  obtain ⟨-, hok, -⟩ := equals_agrees { initial with entry := " 1+2 " }
  obtain ⟨-, -, herror⟩ := equals_agrees { initial with entry := "\u2003 2$3", result := "7" }
  obtain ⟨hresult, -, -, hposition⟩ := herror _ hchar
  obtain ⟨-, hmessage⟩ := hposition '$' 3 rfl
  rw [hblanks] at hmessage
  exact ⟨hsum, (hok "3" hsum).1, hchar, hresult, hmessage⟩

end Equals

end Panel

end DeskCalc
