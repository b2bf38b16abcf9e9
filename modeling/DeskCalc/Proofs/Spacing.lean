import DeskCalc.Proofs.Alternation
import DeskCalc.Proofs.Lexeme
import DeskCalc.Proofs.Surface

/-!
# DeskCalc.Proofs.Spacing — how a text and its tokens lie side by side

* Before a text that does not start with a numeral another one is cut as if it stood alone (`scan_append`), and behind
  one that does not end with a numeral it is too (`close_scan_append`); otherwise the literal at the seam goes on
  (`exists_num_of_run`).
* So the ends of a text, its parentheses and two equal characters in a row can be found among its tokens.
-/

namespace DeskCalc.Token

open Text Grammar

variable {c : Char} {xs ys cs : List Char} {o : Operator} {t : Token} {ts : List Token} {s : String}

/-! ## The end of a text -/

section Suffix

theorem close_of_run_nil {p : Scan} (h : p.run = []) : p.close = p.rest := by
  rw [Scan.close, if_pos h]

theorem close_of_run_ne_nil {p : Scan} (h : p.run ≠ []) : p.close = num (String.ofList p.run) :: p.rest := by
  rw [Scan.close, if_neg h]

/-- A cut with further tokens behind it. -/
def Scan.before (ts : List Token) (p : Scan) : Scan := ⟨p.run, p.rest ++ ts⟩

theorem Scan.close_before (p : Scan) : (p.before ts).close = p.close ++ ts := by
  by_cases h : p.run = []
  · rw [close_of_run_nil h, close_of_run_nil (p := p.before ts) h]
    rfl
  · rw [close_of_run_ne_nil h, close_of_run_ne_nil (p := p.before ts) h]
    rfl

theorem Scan.cons_before (c : Char) (p : Scan) : (p.before ts).cons c = (p.cons c).before ts := by
  simp only [Scan.cons, Scan.close_before]
  split_ifs
  · rfl
  · cases ofChar? c <;> rfl

/-- A text is cut off before another one that does not start with a numeral. -/
theorem scan_append (h : (scan ys).run = []) (xs : List Char) : scan (xs ++ ys) = (scan xs).before (scan ys).close := by
  induction xs with
  | nil =>
    rw [close_of_run_nil h]
    exact congrArg (Scan.mk · (scan ys).rest) h
  | cons c xs ih => rw [List.cons_append, scan_cons, ih, Scan.cons_before, scan_cons]

/-- A run is open at the front of a text exactly if the text starts with a numeral. -/
theorem run_scan_eq_nil_iff : (scan ys).run = [] ↔ ∀ c ∈ ys.head?, isNumeral c = false := by
  cases ys with
  | nil => simp
  | cons c ys =>
    rw [scan_cons, Scan.cons]
    split_ifs with hn
    · simp [hn]
    · cases ofChar? c <;> simp [hn]

/-- What a character that is no numeral is cut into, nothing before or after it changes. -/
theorem close_scan_append_of_not_isNumeral (hn : isNumeral c = false) (xs ys : List Char) :
    (scan (xs ++ c :: ys)).close = (scan xs).close ++ (scan [c]).close ++ (scan ys).close := by
  have hcut : ∀ zs, (scan (c :: zs)).close = (scan [c]).close ++ (scan zs).close := by
    intro zs
    rw [scan_cons, scan_cons, scan_nil, Scan.cons, Scan.cons, if_neg (by simp [hn]), if_neg (by simp [hn])]
    cases ofChar? c <;> rfl
  have hrun : (scan (c :: ys)).run = [] := run_scan_eq_nil_iff.mpr (by simpa using hn)
  rw [scan_append hrun, Scan.close_before, hcut, List.append_assoc]

/-- **Two texts in a row** are cut as each of them alone, unless a literal goes on from the one into the other. -/
theorem close_scan_append
    (h : (∀ c ∈ xs.getLast?, isNumeral c = false) ∨ ∀ c ∈ ys.head?, isNumeral c = false) :
    (scan (xs ++ ys)).close = (scan xs).close ++ (scan ys).close := by
  rcases h with h | h
  · rcases List.eq_nil_or_concat' xs with rfl | ⟨front, c, rfl⟩
    · rfl
    · have hn : isNumeral c = false := h c (by simp)
      rw [List.append_assoc, List.singleton_append, close_scan_append_of_not_isNumeral hn,
        close_scan_append_of_not_isNumeral hn front []]
      simp [Scan.close]
  · rw [scan_append (run_scan_eq_nil_iff.mpr h), Scan.close_before]

theorem close_scan_append_cons {t : Token} (hn : isNumeral c = false) (ht : ofChar? c = some t) (xs ys : List Char) :
    (scan (xs ++ c :: ys)).close = (scan xs).close ++ t :: (scan ys).close := by
  rw [close_scan_append_of_not_isNumeral hn, scan_char hn ht]
  simp [Scan.close]

/-- If the text does not start with a numeral, all its tokens are complete. -/
theorem close_suffix (h : (scan ys).run = []) (xs : List Char) : (scan ys).close <:+ (scan (xs ++ ys)).close := by
  rw [scan_append h, Scan.close_before]
  exact List.suffix_append _ _

/-- If it starts with a numeral, some literal ends with its open run. -/
theorem exists_num_of_run (h : (scan ys).run ≠ []) (xs : List Char) :
    ∃ text, num text ∈ (scan (xs ++ ys)).close ∧ (scan ys).run <:+ text.toList := by
  induction xs with
  | nil =>
    refine ⟨String.ofList (scan ys).run, ?_, by simp⟩
    rw [List.nil_append, close_of_run_ne_nil h]
    exact List.mem_cons_self ..
  | cons c xs ih =>
    obtain ⟨text, hmem, hsuffix⟩ := ih
    rw [List.cons_append, scan_cons, Scan.cons]
    split_ifs
    · -- the literal at the front grows, the others stay
      rw [close_of_run_ne_nil (p := ⟨c :: _, _⟩) (by simp)]
      by_cases hrun : (scan (xs ++ ys)).run = []
      · rw [close_of_run_nil hrun] at hmem
        exact ⟨text, List.mem_cons_of_mem _ hmem, hsuffix⟩
      · rw [close_of_run_ne_nil hrun] at hmem
        rcases List.mem_cons.mp hmem with heq | hmem
        · rw [Token.num.inj heq, String.toList_ofList] at hsuffix
          refine ⟨_, List.mem_cons_self .., ?_⟩
          rw [String.toList_ofList]
          exact hsuffix.trans (List.suffix_cons _ _)
        · exact ⟨text, List.mem_cons_of_mem _ hmem, hsuffix⟩
    · cases ofChar? c with
      | none => exact ⟨text, hmem, hsuffix⟩
      | some t => exact ⟨text, List.mem_cons_of_mem _ hmem, hsuffix⟩

end Suffix

/-! ## Operators and parentheses -/

section Characters

theorem scan_symbol (h : Operator.ofChar? c = some o) (cs : List Char) :
    scan (c :: cs) = ⟨[], op o :: (scan cs).close⟩ := by
  obtain rfl := Operator.ofChar?_eq_some_iff.mp h
  cases o <;> exact scan_char rfl rfl cs

/-- A character that may stand in an expression is blank, a numeral, or a token of its own. -/
theorem exists_ofChar?_of_isKnown (hk : isKnown c = true) (hv : isVisible c = true) (hn : isNumeral c = false) :
    ∃ t, ofChar? c = some t := by
  have hb : isBlank c = false := by simpa [isVisible] using hv
  have ht : (ofChar? c).isSome = true := by simpa [isKnown, hb, hn] using hk
  exact Option.isSome_iff_exists.mp ht

/-- An operator at the start of a text is its first token. -/
theorem head?_close_of_firstVisible? (hc : firstVisible? cs = some c) (ho : Operator.ofChar? c = some o) :
    (scan cs).close.head? = some (op o) := by
  obtain ⟨-, blanks, rest, rfl, hb⟩ := List.find?_eq_some_iff_append.mp hc
  have hblanks : ∀ d ∈ blanks, isBlank d = true := by simpa [isVisible] using hb
  rw [close_scan_blanks hblanks, scan_symbol ho]
  rfl

/-- An operator at the end of a text is its last token. -/
theorem getLast?_close_of_lastVisible? (hc : lastVisible? cs = some c) (ho : Operator.ofChar? c = some o) :
    (scan cs).close.getLast? = some (op o) := by
  obtain ⟨-, blanks, front, hrev, hb⟩ := List.find?_eq_some_iff_append.mp hc
  have hcs : cs = front.reverse ++ c :: blanks.reverse := by
    rw [← List.reverse_reverse cs, hrev]
    simp
  have hblanks : ∀ d ∈ blanks.reverse, isBlank d = true := by simpa [isVisible] using hb
  have hlast : (scan (c :: blanks.reverse)).close = [op o] := by
    rw [scan_symbol ho, close_scan_of_blanks hblanks]
    rfl
  have hrun : (scan (c :: blanks.reverse)).run = [] := by rw [scan_symbol ho]
  have hsuffix := close_suffix hrun front.reverse
  rw [hlast, ← hcs] at hsuffix
  obtain ⟨us, hus⟩ := hsuffix
  rw [← hus]
  simp

/-- The parentheses of a text are the parentheses among its tokens. -/
theorem countP_close_scan (cs : List Char) : (scan cs).close.countP isParen = Surface.parenCount cs := by
  induction cs with
  | nil => rfl
  | cons c cs ih =>
    rw [Surface.parenCount, List.countP_cons, ← Surface.parenCount, ← ih, scan_cons, Scan.cons]
    split_ifs with hn hp hp
    · rcases Bool.or_eq_true_iff.mp hp with he | he
      · exact absurd hn (by rw [eq_of_beq he]; decide)
      · exact absurd hn (by rw [eq_of_beq he]; decide)
    · have hnum : ∀ p : Scan, p.close.countP isParen = p.rest.countP isParen := by
        intro p
        unfold Scan.close
        split_ifs <;> simp [isParen]
      rw [hnum, hnum]
      rfl
    · rcases Bool.or_eq_true_iff.mp hp with he | he
      · obtain rfl := eq_of_beq he
        exact List.countP_cons_of_pos rfl
      · obtain rfl := eq_of_beq he
        exact List.countP_cons_of_pos rfl
    · have hparen : c ≠ '(' ∧ c ≠ ')' := by simpa using hp
      have ho : ofChar? c = (Operator.ofChar? c).map op := by
        unfold ofChar?
        split
        · exact absurd rfl hparen.1
        · exact absurd rfl hparen.2
        · rfl
      rw [ho]
      cases Operator.ofChar? c <;> simp [Scan.close, isParen]

end Characters

end DeskCalc.Token
