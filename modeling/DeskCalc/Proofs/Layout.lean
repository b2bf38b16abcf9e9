import DeskCalc.Proofs.Spacing

/-!
# DeskCalc.Proofs.Layout — where the tokens of a text lie in it

* `Layout ts cs`: the tokens lie in the text in their order, blanks are all that lies between them, and a literal ends
  where its run of numerals ends.  So the visible characters of the text are the texts of the tokens in a row
  (`Layout.filter_isVisible`).
* `tokenize_eq_ok_iff_layout`: a text of known characters has one layout, the tokens that it is cut into.
* Tokens that keep their operands apart are laid out by any blanks around and between them (`tokenize_spaced`), lexemes
  by one space between neighbours (`tokenize_render`).
-/

namespace DeskCalc.Token

open Text Grammar

variable {c : Char} {cs : List Char} {t : Token} {ts : List Token} {s : String}

/-! ## Layouts -/

section Layouts

/-- The tokens lie in the text in their order, with nothing but blanks before, between and behind them; no numeral
comes directly after a literal. -/
inductive Layout : List Token → List Char → Prop
  | nil {blanks : List Char} : (∀ c ∈ blanks, isBlank c = true) → Layout [] blanks
  | cons {blanks : List Char} {t : Token} {ts : List Token} {cs : List Char} :
      (∀ c ∈ blanks, isBlank c = true) → t.IsLexeme →
      ((∃ text, t = num text) → ∀ c ∈ cs.head?, isNumeral c = false) → Layout ts cs →
      Layout (t :: ts) (blanks ++ t.text.toList ++ cs)

theorem Layout.blank_cons (hb : isBlank c = true) (h : Layout ts cs) : Layout ts (c :: cs) := by
  cases h with
  | nil hblanks => exact .nil (List.forall_mem_cons.mpr ⟨hb, hblanks⟩)
  | cons hblanks ht hend hcs => exact .cons (List.forall_mem_cons.mpr ⟨hb, hblanks⟩) ht hend hcs

theorem Layout.text_append (ht : t.IsLexeme) (hend : (∃ text, t = num text) → ∀ c ∈ cs.head?, isNumeral c = false)
    (h : Layout ts cs) : Layout (t :: ts) (t.text.toList ++ cs) := by
  have hnone : ∀ c ∈ ([] : List Char), isBlank c = true := by simp
  exact .cons hnone ht hend h

theorem Layout.close_scan (h : Layout ts cs) : (scan cs).close = ts := by
  induction h with
  | nil hb => exact close_scan_of_blanks hb
  | cons hb ht hend _ ih =>
    rw [List.append_assoc, close_scan_blanks hb, close_scan_text ht fun hnum => run_scan_eq_nil_iff.mpr (hend hnum), ih]

theorem Layout.isKnown (h : Layout ts cs) : ∀ c ∈ cs, isKnown c = true := by
  have hblank : ∀ {w : List Char}, (∀ c ∈ w, isBlank c = true) → ∀ c ∈ w, Token.isKnown c = true :=
    fun hw c hc => isKnown_of_isBlank (hw c hc)
  induction h with
  | nil hb => exact hblank hb
  | cons hb ht _ _ ih =>
    rw [List.forall_mem_append, List.forall_mem_append]
    exact ⟨⟨hblank hb, fun c hc => isKnown_of_mem_text ht hc⟩, ih⟩

theorem Layout.isLexeme (h : Layout ts cs) : ∀ t ∈ ts, t.IsLexeme := by
  induction h with
  | nil _ => simp
  | cons _ ht _ _ ih => exact List.forall_mem_cons.mpr ⟨ht, ih⟩

theorem isVisible_of_mem_text (ht : t.IsLexeme) (hc : c ∈ t.text.toList) : isVisible c = true := by
  by_contra hv
  have hb : isBlank c = true := by simpa [isVisible] using hv
  by_cases h : ∃ text, t = num text
  · obtain ⟨text, rfl⟩ := h
    have hn := ht.2 c hc
    rw [isNumeral_of_isBlank hb] at hn
    cases hn
  · obtain ⟨d, hd, -, ho⟩ := exists_char_of_not_num (t := t) fun text ht => h ⟨text, ht⟩
    rw [hd, List.mem_singleton] at hc
    rw [← hc, ofChar?_of_isBlank hb] at ho
    cases ho

/-- The visible characters of a text are the texts of its tokens. -/
theorem Layout.filter_isVisible (h : Layout ts cs) : cs.filter isVisible = ts.flatMap fun t => t.text.toList := by
  have hblank : ∀ {w : List Char}, (∀ c ∈ w, isBlank c = true) → w.filter isVisible = [] :=
    fun hw => List.filter_eq_nil_iff.mpr fun c hc => by simp [isVisible, hw c hc]
  induction h with
  | nil hb => exact hblank hb
  | cons hb ht _ _ ih =>
    rw [List.filter_append, List.filter_append, hblank hb, List.nil_append,
      List.filter_eq_self.mpr fun c hc => isVisible_of_mem_text ht hc, ih, List.flatMap_cons]

/-- The text of a token is a part of the text. -/
theorem Layout.infix_text (h : Layout ts cs) : ∀ t ∈ ts, t.text.toList <:+: cs := by
  induction h with
  | nil _ => simp
  | @cons blanks t ts cs _ _ _ _ ih =>
    refine List.forall_mem_cons.mpr ⟨⟨blanks, cs, rfl⟩, fun u hu => ?_⟩
    exact (ih u hu).trans (List.suffix_append _ cs).isInfix

end Layouts

/-! ## The layout of a text -/

section Existence

/-- A text cut into tokens, seen from the text: the open run of numerals, then a layout of the tokens behind it. -/
def Scan.LiesIn (p : Scan) (cs : List Char) : Prop :=
  ∃ back, cs = p.run ++ back ∧ (∀ c ∈ p.run, isNumeral c = true) ∧ (∀ c ∈ back.head?, isNumeral c = false) ∧
    Layout p.rest back

/-- The open run is the first literal of the layout. -/
theorem Scan.LiesIn.close {p : Scan} (h : p.LiesIn cs) : Layout p.close cs := by
  obtain ⟨back, rfl, hrun, hend, hback⟩ := h
  by_cases hempty : p.run = []
  · rwa [close_of_run_nil hempty, hempty]
  · have hcons := Layout.text_append (isLexeme_num_ofList hempty hrun) (fun _ => hend) hback
    rw [close_of_run_ne_nil hempty]
    simpa [Token.text] using hcons

/-- A known character goes on with the open run, is a token of its own, or is blank. -/
theorem Scan.LiesIn.cons {p : Scan} (h : p.LiesIn cs) (hc : isKnown c = true) : (p.cons c).LiesIn (c :: cs) := by
  rw [Scan.cons]
  split_ifs with hn
  · obtain ⟨back, rfl, hrun, hend, hback⟩ := h
    exact ⟨back, rfl, List.forall_mem_cons.mpr ⟨hn, hrun⟩, hend, hback⟩
  · have hn : isNumeral c = false := Bool.eq_false_iff.mpr hn
    have hhead : ∀ d ∈ (c :: cs).head?, isNumeral d = false := by simpa using hn
    cases ht : ofChar? c with
    | none =>
      have hb : isBlank c = true := by simpa [isKnown, hn, ht] using hc
      exact ⟨c :: cs, rfl, by simp, hhead, h.close.blank_cons hb⟩
    | some t =>
      have hlexeme := isLexeme_of_ofChar? ht
      have htext := text_of_ofChar? ht
      have hnum : ¬∃ text, t = num text := by
        rintro ⟨text, rfl⟩
        have hc' : isNumeral c = true := hlexeme.2 c (htext ▸ List.mem_singleton_self c)
        rw [hn] at hc'
        cases hc'
      have hcons := Layout.text_append hlexeme (fun h => absurd h hnum) h.close
      rw [htext] at hcons
      exact ⟨c :: cs, rfl, by simp, hhead, hcons⟩

theorem liesIn_scan (hk : ∀ c ∈ cs, isKnown c = true) : (scan cs).LiesIn cs := by
  induction cs with
  | nil => exact ⟨[], rfl, by simp, by simp, .nil (by simp)⟩
  | cons c cs ih =>
    obtain ⟨hc, hcs⟩ := List.forall_mem_cons.mp hk
    exact (ih hcs).cons hc

/-- **The tokens of a text are its layout**, and it has no other. -/
theorem tokenize_eq_ok_iff_layout : tokenize s = .ok ts ↔ Layout ts s.toList := by
  rw [tokenize_eq_ok_iff]
  constructor
  · rintro ⟨hk, rfl⟩
    exact (liesIn_scan hk).close
  · intro h
    exact ⟨h.isKnown, h.close_scan⟩

/-- Every text is cut into lexemes. -/
theorem isLexeme_of_tokenize (h : tokenize s = .ok ts) : ∀ t ∈ ts, t.IsLexeme :=
  (tokenize_eq_ok_iff_layout.mp h).isLexeme

end Existence

/-! ## Spaced and rendered texts -/

section Spaced

theorem layout_of_spaced (h : Spaced ts cs) (hl : ∀ t ∈ ts, t.IsLexeme) (ha : OperandsApart ts) : Layout ts cs := by
  induction h with
  | nil hb => exact .nil hb
  | @cons blanks t ts cs hb _ ih =>
    obtain ⟨ht, hts⟩ := List.forall_mem_cons.mp hl
    have hlayout := ih hts ha.tail
    refine .cons hb ht ?_ hlayout
    -- a literal would go on if the next token were one too
    rintro ⟨text, rfl⟩
    rw [← run_scan_eq_nil_iff]
    by_contra hrun
    have hclose := hlayout.close_scan
    rw [close_of_run_ne_nil hrun] at hclose
    obtain rfl := hclose
    have hnext := ha.parted rfl _ rfl
    exact absurd hnext (by simp [opensOperand])

/-- A spaced text is cut into the tokens that it writes. -/
theorem tokenize_spaced (h : Spaced ts s.toList) (hl : ∀ t ∈ ts, t.IsLexeme) (ha : OperandsApart ts) :
    tokenize s = .ok ts :=
  tokenize_eq_ok_iff_layout.mpr (layout_of_spaced h hl ha)

theorem layout_render (h : ∀ t ∈ ts, t.IsLexeme) : Layout ts (render ts).toList := by
  induction ts with
  | nil => exact .nil (by simp)
  | cons t ts ih =>
    obtain ⟨ht, hts⟩ := List.forall_mem_cons.mp h
    cases ts with
    | nil =>
      have hlayout := Layout.text_append ht (by simp) (ih hts)
      rwa [render_nil, String.toList_empty, List.append_nil] at hlayout
    | cons u ts =>
      have hspace : isNumeral ' ' = false := by decide
      rw [toList_render_cons]
      exact Layout.text_append ht (fun _ => by simpa using hspace) ((ih hts).blank_cons (by decide))

/-- **Reading what was written**: the text of a list of lexemes is cut into that list. -/
theorem tokenize_render (h : ∀ t ∈ ts, t.IsLexeme) : tokenize (render ts) = .ok ts :=
  tokenize_eq_ok_iff_layout.mpr (layout_render h)

/-- The text of a lexeme is cut into that lexeme. -/
theorem tokenize_text (h : t.IsLexeme) : tokenize t.text = .ok [t] := by
  have hread := tokenize_render (List.forall_mem_singleton.mpr h)
  rwa [render_singleton] at hread

end Spaced

end DeskCalc.Token
