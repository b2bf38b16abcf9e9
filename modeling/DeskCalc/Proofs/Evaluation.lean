import DeskCalc.Proofs.Numeral
import DeskCalc.Proofs.Pipeline
import DeskCalc.Proofs.Rearrangement
import DeskCalc.Proofs.Spacing
import DeskCalc.Proofs.Stack

/-!
# DeskCalc.Proofs.Evaluation — a sentence has the value of its tree

* The check looks for what no sentence contains, so it lets every text of a sentence pass (`check_of_sentence`).
* Cutting gives the tokens of the sentence, the pass gives the post-order of its tree, and the stack gives the value of
  the tree: `hasValue_of_sentence` puts the steps together.
* `evaluate_sentence`: with numerals at its leaves, every sentence has the value of its tree, however it is spaced and
  however many parentheses it has to spare.
-/

namespace DeskCalc

open Token Grammar Literal

variable {level : Level} {b : Bool} {cs : List Char} {ts : List Token} {e : Expr} {s text : String} {v : Float}

/-! ## Sentences -/

section Sentences

theorem Grammar.Sentence.even_parens (h : Sentence level ts e) : ts.countP isParen % 2 = 0 := by
  induction h with
  | num text => rfl
  | group _ ih =>
    simp only [List.countP_cons, List.countP_append, List.countP_nil, isParen]
    simp only [if_true]
    omega
  | factor _ ih => exact ih
  | product _ ih => exact ih
  | times _ _ _ ihl ihr =>
    rw [List.countP_append, List.countP_cons_of_neg (by simp [isParen])]
    omega
  | plus _ _ _ ihl ihr =>
    rw [List.countP_append, List.countP_cons_of_neg (by simp [isParen])]
    omega

theorem Grammar.Sentence.mem_literals (h : Sentence level ts e) : Token.num text ∈ ts ↔ text ∈ e.literals := by
  rw [← h.literals_eq, mem_literals_iff]

theorem Literal.IsNumeral.isLexeme (h : IsNumeral text) : (Token.num text).IsLexeme := by
  refine ⟨?_, h.numerals⟩
  rintro rfl
  obtain ⟨c, hc, -⟩ := h.digit
  simp at hc

theorem Grammar.Sentence.isLexeme (h : Sentence level ts e) (hl : ∀ text ∈ e.literals, IsNumeral text) :
    ∀ t ∈ ts, t.IsLexeme := by
  intro t ht
  by_cases hnum : ∃ text, t = Token.num text
  · obtain ⟨text, rfl⟩ := hnum
    exact (hl text (h.mem_literals.mp ht)).isLexeme
  · obtain ⟨c, -, -, hc⟩ := exists_char_of_not_num fun text htext => hnum ⟨text, htext⟩
    exact isLexeme_of_ofChar? hc

/-- A tree with numerals at its leaves has a value. -/
theorem Expr.exists_value (hl : ∀ text ∈ e.literals, IsNumeral text) : ∃ v, e.value? = some v := by
  refine Option.isSome_iff_exists.mp (Expr.isSome_value?_iff.mpr fun text ht => ?_)
  have htext := hl text ht
  exact (Literal.isSome_value?_iff htext.numerals).mpr htext

end Sentences

/-! ## The check -/

section Check

/-- Where turns are taken, no operator stands twice in a row. -/
theorem not_infix_operators (h : Alternates b (scan cs).close) (o : Operator) : ¬[o.symbol, o.symbol] <:+: cs := by
  rintro ⟨xs, ys, rfl⟩
  have ho := Operator.ofChar?_symbol o
  have hscan : scan (o.symbol :: o.symbol :: ys) = ⟨[], op o :: op o :: (scan ys).close⟩ := by
    rw [scan_symbol ho, scan_symbol ho]
    rfl
  have hsuffix := close_suffix (by rw [hscan]) xs
  rw [hscan] at hsuffix
  rw [List.append_assoc] at h
  obtain ⟨b', hb'⟩ := h.suffix hsuffix
  exact absurd hb' (by simp [Scan.close])

/-- Where no literal has two points, none stands twice in a row. -/
theorem not_infix_points (h : ∀ text, num text ∈ (scan cs).close → text.toList.count '.' ≤ 1) :
    ¬['.', '.'] <:+: cs := by
  rintro ⟨xs, ys, rfl⟩
  have hrun : (scan ('.' :: '.' :: ys)).run = '.' :: '.' :: (scan ys).run := rfl
  obtain ⟨text, hmem, hsuffix⟩ := exists_num_of_run (by rw [hrun]; simp) xs
  rw [List.append_assoc] at h
  have hle := h text hmem
  have htwo := hsuffix.sublist.count_le '.'
  rw [hrun, List.count_cons_self, List.count_cons_self] at htwo
  omega

/-- **The check lets sentences pass.** -/
theorem check_of_sentence (ht : tokenize s = .ok ts) (h : Sentence .sum ts e)
    (hp : ∀ text, num text ∈ ts → text.toList.count '.' ≤ 1) : Surface.check s = .ok () := by
  obtain ⟨hknown, rfl⟩ := tokenize_eq_ok_iff.mp ht
  have ha := h.alternates
  refine Surface.check_eq_ok_iff.mpr ⟨?_, ?_, ?_, ?_⟩
  · cases hc : Text.firstVisible? s.toList with
    | none =>
      -- blanks alone are no sentence
      have hblank : ∀ c ∈ s.toList, Text.isBlank c = true := by
        simpa [Text.firstVisible?, List.find?_eq_none, Text.isVisible] using hc
      exact absurd (close_scan_of_blanks hblank) h.ne_nil
    | some c =>
      refine ⟨c, rfl, fun o ho => ?_⟩
      exact absurd (head?_close_of_firstVisible? hc ho) (ha.head?_ne_op o)
  · intro c hc
    refine Option.eq_none_iff_forall_ne_some.mpr fun o ho => ?_
    exact ha.getLast?_ne_op o (getLast?_close_of_lastVisible? hc ho)
  · rw [← countP_close_scan]
    exact h.even_parens
  · have hcomma : ¬[','] <:+: s.toList := by
      intro hc
      exact absurd (hknown ',' (hc.subset (List.mem_singleton_self ','))) (by decide)
    intro p hbarred
    simp only [Surface.barredPatterns, List.mem_cons, List.not_mem_nil, or_false] at hbarred
    rcases hbarred with rfl | rfl | rfl | rfl | rfl | rfl
    · exact hcomma
    · exact not_infix_operators ha .add
    · exact not_infix_operators ha .sub
    · exact not_infix_operators ha .mul
    · exact not_infix_operators ha .div
    · exact not_infix_points hp

end Check

/-! ## The value -/

section Value

theorem tokenize_sentence (h : Sentence .sum ts e) (hl : ∀ text ∈ e.literals, IsNumeral text)
    (hs : Spaced ts s.toList) : tokenize s = .ok ts :=
  tokenize_spaced hs (h.isLexeme hl) h.alternates.operandsApart

theorem check_spaced (h : Sentence .sum ts e) (hl : ∀ text ∈ e.literals, IsNumeral text) (hs : Spaced ts s.toList) :
    Surface.check s = .ok () := by
  refine check_of_sentence (tokenize_sentence h hl hs) h fun text ht => ?_
  exact (hl text (h.mem_literals.mp ht)).points

/-- A sentence has the value of its tree. -/
theorem hasValue_of_sentence (h : Sentence .sum ts e) (hl : ∀ text ∈ e.literals, IsNumeral text)
    (hs : Spaced ts s.toList) (hv : e.value? = some v) : HasValue s v :=
  ⟨check_spaced h hl hs, ts, tokenize_sentence h hl hs, e.rpn, Rpn.ofTokens_sentence h, Rpn.value_rpn hv⟩

/-- The outcome of a sentence is the value of its tree, if that is finite. -/
theorem evaluate_of_value (h : Sentence .sum ts e) (hl : ∀ text ∈ e.literals, IsNumeral text)
    (hs : Spaced ts s.toList) (hv : e.value? = some v) : evaluate s = finiteText v :=
  (hasValue_of_sentence h hl hs hv).evaluate_eq

/-- **Evaluation of sentences**: a text that writes a tree of numerals, with any spare parentheses and any blanks,
passes the check, and its outcome is the text of the value of the tree, or an overflow if the value is not finite. -/
theorem evaluate_sentence (h : Sentence .sum ts e) (hl : ∀ text ∈ e.literals, IsNumeral text)
    (hs : Spaced ts s.toList) :
    Surface.check s = .ok () ∧ ∃ v, e.value? = some v ∧
      evaluate s = if v.isFinite then .ok (Answer.text v) else .error .overflow := by
  obtain ⟨v, hv⟩ := Expr.exists_value hl
  exact ⟨check_spaced h hl hs, v, hv, evaluate_of_value h hl hs hv⟩

/-- Blanks of any kind, a literal without a digit before its point, parentheses to spare. -/
theorem evaluate_sentence_spaced : Surface.check "\u2003((1)+ .5)*\t2 " = .ok () ∧
    ∃ v, (Expr.node .mul (.node .add (.num "1") (.num ".5")) (.num "2")).value? = some v ∧
      evaluate "\u2003((1)+ .5)*\t2 " = if v.isFinite then .ok (Answer.text v) else .error .overflow := by
  have hsum : Sentence .sum ([lparen, num "1", rparen] ++ op .add :: [num ".5"])
      (.node .add (.num "1") (.num ".5")) :=
    .plus (Or.inl rfl) (.product (.factor (.group (.product (.factor (.num "1")))))) (.factor (.num ".5"))
  have h : Sentence .sum
      (lparen :: ([lparen, num "1", rparen] ++ op .add :: [num ".5"] ++ [rparen]) ++ op .mul :: [num "2"])
      (.node .mul (.node .add (.num "1") (.num ".5")) (.num "2")) :=
    .product (.times (Or.inl rfl) (.factor (.group hsum)) (.num "2"))
  have hnil : ∀ c ∈ ([] : List Char), Text.isBlank c = true := by simp
  have hone : ∀ b, Text.isBlank b = true → ∀ c ∈ [b], Text.isBlank c = true := by simp
  have hs : Spaced [lparen, lparen, num "1", rparen, op .add, num ".5", rparen, op .mul, num "2"]
      "\u2003((1)+ .5)*\t2 ".toList :=
    .cons (hone '\u2003' (by decide)) <| .cons hnil <| .cons hnil <| .cons hnil <| .cons hnil <|
      .cons (hone ' ' (by decide)) <| .cons hnil <| .cons hnil <| .cons (hone '\t' (by decide)) <|
      .nil (hone ' ' (by decide))
  exact evaluate_sentence h (by decide) hs

end Value

end DeskCalc
