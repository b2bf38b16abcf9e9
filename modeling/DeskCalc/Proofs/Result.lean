import DeskCalc.Proofs.Evaluation
import DeskCalc.Proofs.Shortest
import DeskCalc.Proofs.Spelling
import DeskCalc.Proofs.Word

/-!
# DeskCalc.Proofs.Result — a result typed in again

* The text of a finite value is a numeral, after a minus sign if the value is negative (`text_cases`), and it is read as
  that value (`value?_numeral`, `value?_minus_numeral`).
* A numeral alone is a sentence, and so is a difference of two (`evaluate_numeral`, `evaluate_zero_minus`); a minus sign
  without an operand before it passes the check and then finds no operand (`evaluate_minus`).
* `evaluate_result`: so a result that is not negative has itself as its result, and one that is has itself as the result
  of zero minus its numeral.
-/

namespace DeskCalc

open Token Grammar Literal Binary64

variable {s r text : String} {x : Float} {c : ℕ}

/-! ## Texts of values -/

namespace Answer

/-- The text of a finite magnitude. -/
def numeral (c : ℕ) : String := String.ofList (decimal c).plain

theorem numeral_zero : numeral 0 = "0" := by decide +kernel

theorem isNumeral_numeral (c : ℕ) : IsNumeral (numeral c) := Decimal.isNumeral_plain (decimal c)

theorem head?_numeral_ne_minus (c : ℕ) : (numeral c).toList.head? ≠ some '-' := by
  obtain ⟨d, hd, hdigit⟩ := Decimal.head?_plain (decimal c)
  rw [numeral, String.toList_ofList, hd]
  rintro ⟨⟩
  exact absurd hdigit (by decide)

theorem value?_numeral (hc : c < infinity) : value? (numeral c) = some (ofCode false c) := by
  rw [numeral, (value?_plain (decimal c)).1, nearestCode_decimal hc.le]

theorem value?_minus_numeral (hc : c < infinity) : value? ("-" ++ numeral c) = some (ofCode true c) := by
  rw [numeral, (value?_plain (decimal c)).2, nearestCode_decimal hc.le]

theorem text_of_code_lt (h : code x < infinity) :
    Answer.text x = (if isNegative x = true ∧ code x ≠ 0 then "-" else "") ++ numeral (code x) := by
  rw [Answer.text, if_neg (Nat.not_lt.mpr h.le), if_neg h.ne]
  rfl

/-- The text of a finite value is the numeral of its code; if the value is negative, a minus sign stands before it. -/
theorem text_cases (hx : x.isFinite = true) : code x < infinity ∧
    ((Answer.text x = numeral (code x) ∧ (code x ≠ 0 → x = ofCode false (code x))) ∨
      (Answer.text x = "-" ++ numeral (code x) ∧ code x ≠ 0)) := by
  have hc := isFinite_iff.mp hx
  refine ⟨hc, ?_⟩
  rw [text_of_code_lt hc]
  by_cases h : isNegative x = true ∧ code x ≠ 0
  · rw [if_pos h]
    exact Or.inr ⟨rfl, h.2⟩
  · rw [if_neg h]
    refine Or.inl ⟨String.empty_append, fun h0 => ?_⟩
    have hpos : isNegative x = false := Bool.eq_false_iff.mpr fun hneg => h ⟨hneg, h0⟩
    rw [← hpos, ofCode_code]

theorem text_ofCode_false (hc : c < infinity) : Answer.text (ofCode false c) = numeral c := by
  have hcode : code (ofCode false c) = c := code_ofCode hc.le
  rw [text_of_code_lt (hcode.trans_lt hc), hcode, isNegative_ofCode hc.le]
  exact String.empty_append

theorem text_ofCode_true (hc : c < infinity) (h0 : c ≠ 0) : Answer.text (ofCode true c) = "-" ++ numeral c := by
  have hcode : code (ofCode true c) = c := code_ofCode hc.le
  rw [text_of_code_lt (hcode.trans_lt hc), hcode, isNegative_ofCode hc.le, if_pos ⟨rfl, h0⟩]

end Answer

/-! ## Numerals as entries -/

section Entries

open Answer

/-- A text without blanks writes its tokens. -/
theorem spaced_texts (ts : List Token) : Spaced ts (ts.flatMap fun t => t.text.toList) := by
  induction ts with
  | nil => exact .nil (by simp)
  | cons t ts ih =>
    have hnone : ∀ c ∈ ([] : List Char), Text.isBlank c = true := by simp
    exact .cons hnone ih

/-- A literal alone. -/
theorem spaced_num (text : String) : Spaced [num text] text.toList := by
  simpa [Token.text] using spaced_texts [num text]

theorem sentence_num (text : String) : Sentence .sum [num text] (.num text) := .product (.factor (.num _))

theorem isNumeral_num (h : IsNumeral text) : ∀ t ∈ (Expr.num text).literals, IsNumeral t := by
  simpa [Expr.literals] using h

/-- A numeral stands for its value. -/
theorem hasValue_numeral (hc : c < infinity) : HasValue (numeral c) (ofCode false c) :=
  hasValue_of_sentence (sentence_num _) (isNumeral_num (isNumeral_numeral c)) (spaced_num _) (value?_numeral hc)

theorem evaluate_numeral (hc : c < infinity) : evaluate (numeral c) = .ok (numeral c) := by
  rw [(hasValue_numeral hc).evaluate_eq, finiteText, if_pos (isFinite_ofCode hc), text_ofCode_false hc]

theorem isNumeral_zero : IsNumeral "0" := by decide

theorem value?_zero : value? "0" = some (ofCode false 0) := by rfl

/-- Zero minus a numeral. -/
theorem spaced_zero_minus (text : String) :
    Spaced ([num "0"] ++ op .sub :: [num text]) ("0" ++ ("-" ++ text)).toList := by
  simpa [Token.text, Operator.symbol] using spaced_texts [num "0", op .sub, num text]

theorem sentence_zero_minus (text : String) :
    Sentence .sum ([num "0"] ++ op .sub :: [num text]) (.node .sub (.num "0") (.num text)) :=
  .plus (Or.inr rfl) (.product (.factor (.num "0"))) (.factor (.num text))

theorem isNumeral_zero_minus (h : IsNumeral text) :
    ∀ t ∈ (Expr.node .sub (.num "0") (.num text)).literals, IsNumeral t := by
  simpa [Expr.literals] using ⟨isNumeral_zero, h⟩

theorem evaluate_zero_minus (hc : c < infinity) (h0 : c ≠ 0) :
    evaluate ("0" ++ ("-" ++ numeral c)) = .ok ("-" ++ numeral c) := by
  have hv : (Expr.node .sub (.num "0") (.num (numeral c))).value? = some (ofCode true c) := by
    rw [← zero_sub_ofCode h0 hc]
    simp only [Expr.value?, value?_zero, value?_numeral hc]
    rfl
  have hvalue : HasValue ("0" ++ ("-" ++ numeral c)) (ofCode true c) :=
    hasValue_of_sentence (sentence_zero_minus _) (isNumeral_zero_minus (isNumeral_numeral c)) (spaced_zero_minus _) hv
  rw [hvalue.evaluate_eq, finiteText, if_pos (isFinite_ofCode hc), text_ofCode_true hc h0]

/-- A minus sign in front passes the check. -/
theorem check_minus (h : IsNumeral text) : Surface.check ("-" ++ text) = .ok () := by
  -- what the check looks for in the text, it would find behind a zero as well
  have hzero := check_spaced (sentence_zero_minus text) (isNumeral_zero_minus h) (spaced_zero_minus text)
  obtain ⟨-, hlast, hparens, hpatterns⟩ := Surface.check_eq_ok_iff.mp hzero
  have hzero' : ("0" ++ ("-" ++ text)).toList = '0' :: ("-" ++ text).toList := by simp
  rw [hzero'] at hlast hparens hpatterns
  refine Surface.check_eq_ok_iff.mpr ⟨⟨'-', ?_, ?_⟩, ?_, ?_, ?_⟩
  · rw [String.toList_append]
    rfl
  · rintro o ⟨⟩
    rfl
  · intro d hd
    refine hlast d ?_
    rw [Text.lastVisible?, List.reverse_cons, Text.firstVisible?, List.find?_append]
    rw [Text.lastVisible?, Text.firstVisible?] at hd
    rw [hd]
    rfl
  · exact hparens
  · exact fun p hp hin => hpatterns p hp (hin.trans (List.infix_cons (List.infix_refl _)))

/-- A minus sign in front finds no operand. -/
theorem evaluate_minus (h : IsNumeral text) : evaluate ("-" ++ text) = .error (.missingOperand .sub) := by
  obtain ⟨v, hv⟩ := Option.isSome_iff_exists.mp ((isSome_value?_iff h.numerals).mpr h)
  have hspaced : Spaced [op .sub, num text] ("-" ++ text).toList := by
    simpa [Token.text, Operator.symbol] using spaced_texts [op .sub, num text]
  have hapart : OperandsApart [op .sub, num text] := by
    simp [OperandsApart, closesOperand]
  have ht : tokenize ("-" ++ text) = .ok [op .sub, num text] := by
    refine tokenize_spaced hspaced ?_ hapart
    simpa using ⟨trivial, h.isLexeme⟩
  have hr : Rpn.ofTokens [op .sub, num text] = .ok [num text, op .sub] := by rfl
  rw [evaluate_of_ofTokens (check_minus h) ht hr, Working.outcomeOf, Rpn.value, Rpn.stackAfter_cons, Rpn.push, hv]
  rfl

end Entries

/-! ## Results as entries -/

section Results

/-- **A result typed in again** is read as a finite value.  If it does not start with a minus sign, it is its own
result.  If it does, the sign finds no operand, and behind a zero the result comes out again. -/
theorem evaluate_result (h : evaluate s = .ok r) :
    (∃ v, value? r = some v ∧ v.isFinite = true) ∧
    (r.toList.head? ≠ some '-' → evaluate r = .ok r) ∧
    (r.toList.head? = some '-' →
      (∃ f, evaluate r = .error f ∧ f.kind = .rpn ∧ f.detail = "opérande manquante pour '-'") ∧
      evaluate ("0" ++ r) = .ok r) := by
  obtain ⟨-, -, -, -, -, x, -, hx, rfl⟩ := evaluate_eq_ok_iff.mp h
  obtain ⟨hc, ⟨htext, -⟩ | ⟨htext, h0⟩⟩ := Answer.text_cases hx
  · rw [htext]
    refine ⟨⟨_, Answer.value?_numeral hc, isFinite_ofCode hc⟩, fun _ => evaluate_numeral hc, fun hminus => ?_⟩
    exact absurd hminus (Answer.head?_numeral_ne_minus _)
  · rw [htext]
    have hminus : ("-" ++ Answer.numeral (code x)).toList.head? = some '-' := by simp
    refine ⟨⟨_, Answer.value?_minus_numeral hc, isFinite_ofCode hc⟩, fun hne => absurd hminus hne, fun _ => ⟨?_, ?_⟩⟩
    · exact ⟨_, evaluate_minus (Answer.isNumeral_numeral _), rfl, rfl⟩
    · exact evaluate_zero_minus hc h0

/-- A fraction is typed in again as it is, a negative number behind a zero. -/
theorem evaluate_result_difference :
    (evaluate "1/4" = .ok "0.25" ∧ evaluate "0.25" = .ok "0.25") ∧
    evaluate "2-5" = .ok "-3" ∧ (∃ v, value? "-3" = some v ∧ v.isFinite = true) ∧
      (∃ f, evaluate "-3" = .error f ∧ f.kind = .rpn ∧ f.detail = "opérande manquante pour '-'") ∧
      evaluate "0-3" = .ok "-3" := by
  have hquarter : evaluate "1/4" = .ok "0.25" := by decide +kernel
  have hminus : evaluate "2-5" = .ok "-3" := by decide +kernel
  obtain ⟨-, hagain, -⟩ := evaluate_result hquarter
  obtain ⟨hread, -, hbehind⟩ := evaluate_result hminus
  exact ⟨⟨hquarter, hagain (by decide)⟩, hminus, hread, hbehind (by decide)⟩

end Results

end DeskCalc
