import DeskCalc.Token.Scan
import Mathlib.Tactic.ByContra
import Mathlib.Tactic.SplitIfs

/-!
# DeskCalc.Proofs.Lexeme — the tokens that a text is cut into

* A lexeme is a token that has a text to be cut from: its literals are nonempty runs of numerals.
* Blanks only end a literal (`scan_blank`), and in front of anything that does not go on with a numeral the text of a
  lexeme is cut off as that lexeme (`close_scan_text`).
* `tokenize_eq_ok_iff`: a text has tokens exactly if it knows all its characters, and then they are its cut.
-/

namespace DeskCalc.Token

open Text

variable {c : Char} {w cs : List Char} {t : Token} {ts : List Token} {s : String}

/-- A token with a text to be cut from. -/
def IsLexeme : Token → Prop
  | num text => text ≠ "" ∧ ∀ c ∈ text.toList, isNumeral c = true
  | op _ | lparen | rparen => True

/-! ## Characters -/

section Characters

theorem isNumeral_iff : isNumeral c = true ↔ c.isDigit = true ∨ c = '.' := by
  simp [isNumeral]

theorem isNumeral_of_isBlank (h : isBlank c = true) : isNumeral c = false := by
  by_contra hn
  rw [Bool.not_eq_false, isNumeral_iff] at hn
  rcases hn with hd | rfl
  · rw [isBlank_eq_false_of_isDigit hd] at h
    cases h
  · exact absurd h (by decide)

theorem isKnown_of_isBlank (h : isBlank c = true) : isKnown c = true := by
  rw [isKnown, h]
  rfl

/-- A nonempty run of numerals is the text of a literal. -/
theorem isLexeme_num_ofList (hne : w ≠ []) (h : ∀ c ∈ w, isNumeral c = true) : (num (String.ofList w)).IsLexeme := by
  refine ⟨fun h0 => hne ?_, by simpa using h⟩
  simpa using congrArg String.toList h0

/-- A token of one character is no literal. -/
theorem isLexeme_of_ofChar? (h : ofChar? c = some t) : t.IsLexeme := by
  unfold ofChar? at h
  split at h
  · exact Option.some.inj h ▸ trivial
  · exact Option.some.inj h ▸ trivial
  · obtain ⟨o, -, rfl⟩ := Option.map_eq_some_iff.mp h
    trivial

theorem text_of_ofChar? (h : ofChar? c = some t) : t.text.toList = [c] := by
  unfold ofChar? at h
  split at h
  · exact Option.some.inj h ▸ rfl
  · exact Option.some.inj h ▸ rfl
  · obtain ⟨o, ho, rfl⟩ := Option.map_eq_some_iff.mp h
    rw [Operator.ofChar?_eq_some_iff.mp ho]
    simp [text]

theorem ofChar?_of_isBlank (h : isBlank c = true) : ofChar? c = none := by
  unfold ofChar?
  split
  · exact absurd h (by decide)
  · exact absurd h (by decide)
  · rw [Option.map_eq_none_iff, Option.eq_none_iff_forall_ne_some]
    intro o ho
    rw [Operator.ofChar?_eq_some_iff.mp ho] at h
    cases o <;> exact absurd h (by decide)

/-- A lexeme that is no literal is written by one character, and read from it. -/
theorem exists_char_of_not_num (h : ∀ text, t ≠ num text) :
    ∃ c, t.text.toList = [c] ∧ isNumeral c = false ∧ ofChar? c = some t := by
  cases t with
  | num text => exact absurd rfl (h text)
  | op o => cases o <;> exact ⟨_, rfl, rfl, rfl⟩
  | lparen => exact ⟨'(', rfl, rfl, rfl⟩
  | rparen => exact ⟨')', rfl, rfl, rfl⟩

theorem isKnown_of_mem_text (ht : t.IsLexeme) (hc : c ∈ t.text.toList) : isKnown c = true := by
  by_cases h : ∃ text, t = num text
  · obtain ⟨text, rfl⟩ := h
    simp [isKnown, ht.2 c hc]
  · obtain ⟨d, hd, -, ho⟩ := exists_char_of_not_num (t := t) (fun text ht => h ⟨text, ht⟩)
    rw [hd, List.mem_singleton] at hc
    simp [isKnown, hc, ho]

end Characters

/-! ## Cutting -/

section Cut

theorem scan_blank (h : isBlank c = true) (cs : List Char) : scan (c :: cs) = ⟨[], (scan cs).close⟩ := by
  simp [Scan.cons, isNumeral_of_isBlank h, ofChar?_of_isBlank h]

theorem close_scan_blanks (h : ∀ c ∈ w, isBlank c = true) (cs : List Char) :
    (scan (w ++ cs)).close = (scan cs).close := by
  induction w with
  | nil => rfl
  | cons c w ih =>
    rw [List.cons_append, scan_blank (h c (List.mem_cons_self ..))]
    exact ih fun d hd => h d (List.mem_cons_of_mem _ hd)

theorem close_scan_of_blanks (h : ∀ c ∈ w, isBlank c = true) : (scan w).close = [] := by
  rw [← List.append_nil w, close_scan_blanks h]
  rfl

theorem scan_char (hn : isNumeral c = false) (h : ofChar? c = some t) (cs : List Char) :
    scan (c :: cs) = ⟨[], t :: (scan cs).close⟩ := by
  simp [Scan.cons, hn, h]

theorem scan_numerals (h : ∀ c ∈ w, isNumeral c = true) (cs : List Char) :
    scan (w ++ cs) = ⟨w ++ (scan cs).run, (scan cs).rest⟩ := by
  induction w with
  | nil => rfl
  | cons c w ih =>
    rw [List.cons_append, scan_cons, ih fun d hd => h d (List.mem_cons_of_mem _ hd)]
    simp [Scan.cons, h c (List.mem_cons_self ..)]

/-- Before a text that does not start with a numeral, the text of a lexeme is cut off. -/
theorem close_scan_text (ht : t.IsLexeme) (hcs : (∃ text, t = num text) → (scan cs).run = []) :
    (scan (t.text.toList ++ cs)).close = t :: (scan cs).close := by
  by_cases h : ∃ text, t = num text
  · have hrun := hcs h
    obtain ⟨text, rfl⟩ := h
    have hne : text.toList ≠ [] := fun h0 => ht.1 (String.toList_eq_nil_iff.mp h0)
    have hrest : (scan cs).close = (scan cs).rest := by simp [Scan.close, hrun]
    rw [show (num text).text = text from rfl, scan_numerals ht.2, hrun, hrest]
    simp [Scan.close, hne]
  · obtain ⟨c, hc, hn, ho⟩ := exists_char_of_not_num (t := t) (fun text ht => h ⟨text, ht⟩)
    rw [hc, List.singleton_append, scan_char hn ho]
    rfl

end Cut

/-! ## Texts and tokens -/

section Tokenize

theorem tokenize_eq_ok_iff :
    tokenize s = .ok ts ↔ (∀ c ∈ s.toList, isKnown c = true) ∧ (scan s.toList).close = ts := by
  have hnone : firstUnknown? s.toList = none ↔ ∀ c ∈ s.toList, isKnown c = true := by
    simp only [firstUnknown?, List.find?_eq_none, Bool.not_eq_true', Bool.not_eq_false]
    constructor
    · intro h c hc
      obtain ⟨i, hi, rfl⟩ := List.mem_iff_getElem.mp hc
      exact h (s.toList[i], i) (by simp [List.mk_mem_zipIdx_iff_getElem?])
    · rintro h ⟨c, i⟩ hp
      exact h c (List.fst_mem_of_mem_zipIdx hp)
  rw [← hnone, tokenize]
  cases firstUnknown? s.toList with
  | none => simp
  | some p => simp

/-- The fault of a text that cannot be cut is in the surface. -/
theorem kind_of_tokenize {f : Fault} (h : tokenize s = .error f) : f.kind = .surface := by
  unfold tokenize at h
  split at h
  · obtain rfl := Except.error.inj h
    rfl
  · cases h

theorem IsLexeme.text_ne_empty (h : t.IsLexeme) : t.text ≠ "" := by
  cases t with
  | num text => exact h.1
  | op o => cases o <;> decide
  | lparen => decide
  | rparen => decide

theorem toList_render_cons (t u : Token) (ts : List Token) :
    (render (t :: u :: ts)).toList = t.text.toList ++ ' ' :: (render (u :: ts)).toList := by
  simp [render, String.intercalate_cons_cons]

/-- Only no tokens at all have an empty text. -/
theorem render_eq_empty_iff (h : ∀ t ∈ ts, t.IsLexeme) : render ts = "" ↔ ts = [] := by
  refine ⟨fun hts => ?_, fun hts => hts ▸ render_nil⟩
  rcases ts with _ | ⟨t, _ | ⟨u, ts⟩⟩
  · rfl
  · exact absurd hts (h t (List.mem_singleton_self t)).text_ne_empty
  · have hlist := congrArg String.toList hts
    rw [toList_render_cons] at hlist
    simp at hlist

end Tokenize

end DeskCalc.Token
