import DeskCalc.Proofs.Blanks

/-!
# DeskCalc.Proofs.Respacing — entries that have the same tokens

* The visible characters of a text are the texts of its tokens in a row (`Layout.filter_isVisible`).  So texts with
  the same tokens have the same ends and the same parentheses, and the check can tell them apart by the barred patterns
  only (`ofEntry_eq_of_tokenize`).
* A pattern in the rendered tokens lies in the text of one token, and that text is a part of the entry.
* `ofEntry_tokens`: hence the tokens of an entry, one space apart, are an entry with the same working.
* Blanks between two texts change no token unless they part a literal (`close_scan_insert_blanks`), and they bring no
  pattern about.  `ofEntry_insert_blanks`: hence they do not show in the working.
-/

namespace DeskCalc

open Token Text

variable {c : Char} {xs ys cs blanks pattern : List Char} {s u : String} {t : Token} {ts : List Token}

/-! ## Visible characters -/

section Visible

/-- A text with the visible characters of another one, and no pattern that the other one does not have, passes the
check if the other one does. -/
theorem Surface.check_of_visible (hv : u.toList.filter isVisible = s.toList.filter isVisible)
    (hp : ∀ p ∈ barredPatterns, p.toList <:+: u.toList → p.toList <:+: s.toList) (hc : check s = .ok ()) :
    check u = .ok () := by
  obtain ⟨hfirst, hlast, hparens, hpatterns⟩ := check_eq_ok_iff.mp hc
  have hkeep : ∀ c, isVisible c = true → isVisible c = true := fun _ h => h
  rw [← firstVisible?_filter hkeep, ← hv, firstVisible?_filter hkeep] at hfirst
  rw [← lastVisible?_filter hkeep, ← hv, lastVisible?_filter hkeep] at hlast
  rw [← parenCount_filter hkeep, ← hv, parenCount_filter hkeep] at hparens
  exact check_eq_ok_iff.mpr ⟨hfirst, hlast, hparens, fun p hbarred hi => hpatterns p hbarred (hp p hbarred hi)⟩

/-- Entries with the same tokens have the same working, if the one that passes the check has all barred patterns of
the other one. -/
theorem Working.ofEntry_eq_of_tokenize (hc : Surface.check s = .ok ()) (hs : tokenize s = .ok ts)
    (hu : tokenize u = .ok ts)
    (hp : ∀ p ∈ Surface.barredPatterns, p.toList <:+: u.toList → p.toList <:+: s.toList) :
    Working.ofEntry u = Working.ofEntry s := by
  have hv : u.toList.filter isVisible = s.toList.filter isVisible := by
    rw [(tokenize_eq_ok_iff_layout.mp hs).filter_isVisible, (tokenize_eq_ok_iff_layout.mp hu).filter_isVisible]
  refine Working.ofEntry_congr ?_
  rw [tokensOf_of_check (Surface.check_of_visible hv hp hc), tokensOf_of_check hc, hu, hs]

end Visible

/-! ## Patterns -/

section Patterns

/-- A barred pattern is not empty and has no blank in it. -/
theorem Surface.barred_spec {p : String} (hp : p ∈ barredPatterns) :
    p.toList ≠ [] ∧ ∀ c ∈ p.toList, isVisible c = true := by
  have hall : ∀ p ∈ barredPatterns, p.toList ≠ [] ∧ p.toList.all isVisible = true := by decide
  obtain ⟨hne, hvisible⟩ := hall p hp
  exact ⟨hne, List.all_eq_true.mp hvisible⟩

/-- A pattern without a space in it lies in the text of one token. -/
theorem Token.exists_infix_text_of_render (hne : pattern ≠ []) (hspace : ' ' ∉ pattern)
    (h : pattern <:+: (render ts).toList) : ∃ t ∈ ts, pattern <:+: t.text.toList := by
  induction ts with
  | nil => exact absurd (List.infix_nil.mp h) hne
  | cons t ts ih =>
    cases ts with
    | nil => exact ⟨t, List.mem_singleton_self t, h⟩
    | cons u ts =>
      rw [toList_render_cons, infix_append_cons_iff hspace] at h
      rcases h with h | h
      · exact ⟨t, List.mem_cons_self .., h⟩
      · obtain ⟨v, hv, hi⟩ := ih h
        exact ⟨v, List.mem_cons_of_mem _ hv, hi⟩

/-- Rendered tokens have no barred pattern that the text they were cut from does not have. -/
theorem infix_of_render (hs : tokenize s = .ok ts) {p : String} (hp : p ∈ Surface.barredPatterns)
    (h : p.toList <:+: (render ts).toList) : p.toList <:+: s.toList := by
  obtain ⟨hne, hvisible⟩ := Surface.barred_spec hp
  have hspace : ' ' ∉ p.toList := fun hmem => absurd (hvisible ' ' hmem) (by decide)
  obtain ⟨t, ht, hi⟩ := exists_infix_text_of_render hne hspace h
  exact hi.trans ((tokenize_eq_ok_iff_layout.mp hs).infix_text t ht)

/-- Blanks between two texts bring no barred pattern about. -/
theorem infix_of_insert_blanks (hb : ∀ c ∈ blanks, isBlank c = true) {p : String} (hp : p ∈ Surface.barredPatterns)
    (h : p.toList <:+: xs ++ (blanks ++ ys)) : p.toList <:+: xs ++ ys := by
  obtain ⟨hne, hvisible⟩ := Surface.barred_spec hp
  cases blanks with
  | nil => exact h
  | cons b blanks =>
    obtain ⟨hblank, hblanks⟩ := List.forall_mem_cons.mp hb
    have hsep : b ∉ p.toList := fun hmem => absurd (hvisible b hmem) (by simp [isVisible, hblank])
    rw [List.cons_append, infix_append_cons_iff hsep] at h
    rcases h with h | h
    · exact h.trans (List.prefix_append xs ys).isInfix
    · have hys := infix_of_blanks_append (fun c hc => hvisible c (List.mem_of_mem_head? hc)) hne hblanks h
      exact hys.trans (List.suffix_append xs ys).isInfix

end Patterns

/-! ## Rendered tokens -/

section Rendered

/-- **The tokens of an entry are an entry of their own**: one space apart, they have the working of the entry that they
were cut from. -/
theorem ofEntry_tokens (h : (Working.ofEntry s).tokens ≠ "") :
    Working.ofEntry (Working.ofEntry s).tokens = Working.ofEntry s := by
  have hrendered : ∀ {ts}, Working.tokensOf s = .ok ts → Working.ofEntry (render ts) = Working.ofEntry s := by
    intro ts ht
    obtain ⟨hc, hs⟩ := Working.tokensOf_eq_ok_iff.mp ht
    exact Working.ofEntry_eq_of_tokenize hc hs (tokenize_render (isLexeme_of_tokenize hs))
      fun _ hp hi => infix_of_render hs hp hi
  rcases Working.ofEntry_cases s with ⟨f, -, hw⟩ | ⟨ts, f, ht, -, hw⟩ | ⟨ts, rpn, ht, -, hw⟩
  · rw [hw] at h
    exact absurd rfl h
  · have htokens : (Working.ofEntry s).tokens = render ts := by rw [hw]
    rw [htokens, hrendered ht]
  · have htokens : (Working.ofEntry s).tokens = render ts := by rw [hw]
    rw [htokens, hrendered ht]

/-- An entry that comes to nothing comes to the same nothing again. -/
theorem ofEntry_tokens_leftover : (Working.ofEntry "(1+.5)\u20032").tokens ≠ "" ∧
    Working.ofEntry (Working.ofEntry "(1+.5)\u20032").tokens = Working.ofEntry "(1+.5)\u20032" := by
  have htokens : (Working.ofEntry "(1+.5)\u20032").tokens ≠ "" := by decide +kernel
  exact ⟨htokens, ofEntry_tokens htokens⟩

end Rendered

/-! ## Blanks put in -/

section Inserted

namespace Token

/-- Blanks between two texts change no token, unless numerals stand on both sides of them. -/
theorem close_scan_insert_blanks (hb : ∀ c ∈ blanks, isBlank c = true)
    (h : (∀ c ∈ xs.getLast?, isNumeral c = false) ∨ ∀ c ∈ ys.head?, isNumeral c = false) :
    (scan (xs ++ (blanks ++ ys))).close = (scan (xs ++ ys)).close := by
  cases blanks with
  | nil => rfl
  | cons b blanks =>
    have hhead : ∀ c ∈ (b :: blanks ++ ys).head?, isNumeral c = false := by
      simpa using isNumeral_of_isBlank (hb b (List.mem_cons_self ..))
    rw [close_scan_append (Or.inr hhead), close_scan_blanks hb, close_scan_append h]

theorem tokenize_insert_blanks {a b w : String} (hw : ∀ c ∈ w.toList, isBlank c = true)
    (h : (∀ c ∈ a.toList.getLast?, isNumeral c = false) ∨ ∀ c ∈ b.toList.head?, isNumeral c = false)
    (ht : tokenize (a ++ b) = .ok ts) : tokenize (a ++ w ++ b) = .ok ts := by
  obtain ⟨hknown, hclose⟩ := tokenize_eq_ok_iff.mp ht
  simp only [String.toList_append] at hknown hclose
  refine tokenize_eq_ok_iff.mpr ?_
  simp only [String.toList_append, List.append_assoc]
  refine ⟨?_, (close_scan_insert_blanks hw h).trans hclose⟩
  intro c hc
  rcases List.mem_append.mp hc with hc | hc
  · exact hknown c (List.mem_append_left _ hc)
  · rcases List.mem_append.mp hc with hc | hc
    · exact isKnown_of_isBlank (hw c hc)
    · exact hknown c (List.mem_append_right _ hc)

end Token

/-- **Blanks do not matter** outside literals: put in anywhere in an entry that passes the check and is cut into tokens,
but not between two numerals, they leave the whole working as it was, result or fault. -/
theorem ofEntry_insert_blanks {a b w : String} (hc : Surface.check (a ++ b) = .ok ())
    (ht : ∃ ts, tokenize (a ++ b) = .ok ts)
    (hab : ¬((∃ c, a.toList.getLast? = some c ∧ isNumeral c = true) ∧
      ∃ d, b.toList.head? = some d ∧ isNumeral d = true))
    (hw : ∀ c ∈ w.toList, isBlank c = true) :
    Working.ofEntry (a ++ w ++ b) = Working.ofEntry (a ++ b) := by
  obtain ⟨ts, ht⟩ := ht
  have hsides : (∀ c ∈ a.toList.getLast?, isNumeral c = false) ∨ ∀ c ∈ b.toList.head?, isNumeral c = false := by
    rcases not_and_or.mp hab with hleft | hright
    · exact Or.inl fun c hc => Bool.eq_false_iff.mpr fun hn => hleft ⟨c, hc, hn⟩
    · exact Or.inr fun c hc => Bool.eq_false_iff.mpr fun hn => hright ⟨c, hc, hn⟩
  refine Working.ofEntry_eq_of_tokenize hc ht (tokenize_insert_blanks hw hsides ht) fun p hp hi => ?_
  simp only [String.toList_append, List.append_assoc] at hi ⊢
  exact infix_of_insert_blanks hw hp hi

/-- Blanks behind a literal, in front of an operator. -/
theorem ofEntry_insert_blanks_sum : Surface.check ("6/(1" ++ "+2)") = .ok () ∧
    (∃ ts, tokenize ("6/(1" ++ "+2)") = .ok ts) ∧ (∀ c ∈ "\u2003\t".toList, isBlank c = true) ∧
    Working.ofEntry ("6/(1" ++ "\u2003\t" ++ "+2)") = Working.ofEntry ("6/(1" ++ "+2)") := by
  have hc : Surface.check ("6/(1" ++ "+2)") = .ok () := by decide +kernel
  have ht : ∃ ts, tokenize ("6/(1" ++ "+2)") = .ok ts := ⟨_, rfl⟩
  have hw : ∀ c ∈ "\u2003\t".toList, isBlank c = true := List.all_eq_true.mp (by decide)
  refine ⟨hc, ht, hw, ofEntry_insert_blanks hc ht ?_ hw⟩
  rintro ⟨-, d, hd, hn⟩
  obtain rfl : '+' = d := Option.some.inj hd
  exact absurd hn (by decide)

end Inserted

end DeskCalc
