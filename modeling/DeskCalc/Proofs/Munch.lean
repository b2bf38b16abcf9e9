import DeskCalc.Proofs.Respacing

/-!
# DeskCalc.Proofs.Munch — a text is cut without a loss into literals as long as they can be

* The characters that may stand in a text are blanks, digits, the point, operators and parentheses (`isKnown_iff`), and
  the first one that may not is reported with its position (`tokenize_eq_error_iff`).
* A literal is cut off as a whole run (`IsRun`), with the tokens before it cut from what stands before it and the tokens
  behind it from what stands behind it, and every whole run is a literal (`eq_append_num_iff`).
* `tokenize_munches`: hence what is cut, what it is cut into, and what is refused.
* `render_reads_back`: reading undoes writing on exactly the lists that texts are cut into.
-/

namespace DeskCalc.Token

open Text

variable {c : Char} {w cs front run back : List Char} {ts us vs : List Token} {s text : String} {f : Fault} {i : ℕ}

/-! ## Characters that may stand in a text -/

section Alphabet

theorem isSome_ofChar?_iff : (ofChar? c).isSome = true ↔ c ∈ ['+', '-', '*', '/', '(', ')'] := by
  constructor
  · intro h
    obtain ⟨t, ht⟩ := Option.isSome_iff_exists.mp h
    unfold ofChar? at ht
    split at ht
    · decide
    · decide
    · obtain ⟨o, ho, -⟩ := Option.map_eq_some_iff.mp ht
      rw [Operator.ofChar?_eq_some_iff.mp ho]
      cases o <;> decide
  · intro h
    simp only [List.mem_cons, List.not_mem_nil, or_false] at h
    rcases h with rfl | rfl | rfl | rfl | rfl | rfl <;> rfl

/-- The alphabet of expressions: blanks, ASCII digits, the point, operators and parentheses. -/
def InAlphabet (c : Char) : Prop :=
  isBlank c = true ∨ c.isDigit = true ∨ c ∈ ['.', '+', '-', '*', '/', '(', ')']

theorem isKnown_iff : isKnown c = true ↔ InAlphabet c := by
  rw [isKnown, Bool.or_eq_true, Bool.or_eq_true, isNumeral_iff, isSome_ofChar?_iff, or_assoc, or_assoc, InAlphabet]
  simp only [List.mem_cons]

theorem firstUnknown?_eq_some_iff :
    firstUnknown? cs = some (c, i) ↔
      ∃ front back, cs = front ++ c :: back ∧ front.length = i ∧ (∀ d ∈ front, isKnown d = true) ∧ isKnown c = false := by
  rw [firstUnknown?, List.find?_eq_some_iff_append]
  constructor
  · rintro ⟨hc, as, bs, hsplit, has⟩
    obtain ⟨front, rest, rfl, rfl, hrest⟩ := List.zipIdx_eq_append_iff.mp hsplit
    obtain ⟨d, back, rfl, hd, -⟩ := List.zipIdx_eq_cons_iff.mp hrest.symm
    obtain ⟨rfl, hi⟩ := Prod.mk.inj hd
    refine ⟨front, back, rfl, by omega, fun d hd => ?_, by simpa using hc⟩
    obtain ⟨j, hj, rfl⟩ := List.mem_iff_getElem.mp hd
    simpa using has (front[j], j) (by simp [List.mk_mem_zipIdx_iff_getElem?])
  · rintro ⟨front, back, rfl, rfl, hfront, hc⟩
    refine ⟨by simpa using hc, front.zipIdx, back.zipIdx (front.length + 1), by simp [List.zipIdx_append], ?_⟩
    rintro ⟨d, j⟩ hd
    simpa using hfront d (List.fst_mem_of_mem_zipIdx hd)

/-- A text is refused for its first unknown character, whatever stands before and after it. -/
theorem tokenize_eq_error_iff :
    tokenize s = .error f ↔
      ∃ front c back, s.toList = front ++ c :: back ∧ (∀ d ∈ front, isKnown d = true) ∧ isKnown c = false ∧
        f = .unexpectedChar c front.length := by
  have hfirst : tokenize s = .error f ↔ ∃ c i, firstUnknown? s.toList = some (c, i) ∧ f = .unexpectedChar c i := by
    rw [tokenize]
    cases firstUnknown? s.toList with
    | none => simp
    | some p => simp [Prod.ext_iff, eq_comm]
  rw [hfirst]
  constructor
  · rintro ⟨c, i, h, rfl⟩
    obtain ⟨front, back, hs, rfl, hfront, hc⟩ := firstUnknown?_eq_some_iff.mp h
    exact ⟨front, c, back, hs, hfront, hc, rfl⟩
  · rintro ⟨front, c, back, hs, hfront, hc, rfl⟩
    exact ⟨c, front.length, firstUnknown?_eq_some_iff.mpr ⟨front, back, hs, rfl, hfront, hc⟩, rfl⟩

end Alphabet

/-! ## Literals -/

section Literals

/-- A whole run of numerals in a text: no numeral stands directly before or after it. -/
structure IsRun (cs front run back : List Char) : Prop where
  split : cs = front ++ run ++ back
  ne_nil : run ≠ []
  numerals : ∀ c ∈ run, isNumeral c = true
  before : ∀ c ∈ front.getLast?, isNumeral c = false
  after : ∀ c ∈ back.head?, isNumeral c = false

theorem exists_head?_of_numerals (hne : run ≠ []) (h : ∀ c ∈ run, isNumeral c = true) (cs : List Char) :
    ∃ c ∈ (run ++ cs).head?, isNumeral c = true := by
  cases run with
  | nil => exact absurd rfl hne
  | cons c run => exact ⟨c, rfl, h c (List.mem_cons_self ..)⟩

theorem getLast?_blanks (hb : ∀ c ∈ w, isBlank c = true) : ∀ c ∈ w.getLast?, isNumeral c = false :=
  fun c hc => isNumeral_of_isBlank (hb c (List.mem_of_mem_getLast? hc))

/-- A literal of a layout is a whole run of the text, and the tokens before and behind it are laid out before and behind
it. -/
theorem Layout.exists_isRun (h : Layout (us ++ num text :: vs) cs) :
    ∃ front back, IsRun cs front text.toList back ∧ Layout us front ∧ Layout vs back := by
  induction us generalizing cs with
  | nil =>
    cases h with
    | @cons blanks _ _ back hb ht hend hback =>
      have hne : text.toList ≠ [] := String.toList_eq_nil_iff.not.mpr ht.1
      exact ⟨blanks, back, ⟨rfl, hne, ht.2, getLast?_blanks hb, hend ⟨text, rfl⟩⟩, .nil hb, hback⟩
  | cons u us ih =>
    cases h with
    | @cons blanks _ _ rest hb hu hend hrest =>
      obtain ⟨front, back, ⟨rfl, hne, hnum, hbefore, hafter⟩, hus, hvs⟩ := ih hrest
      refine ⟨blanks ++ u.text.toList ++ front, back, ⟨by simp, hne, hnum, ?_, hafter⟩, .cons hb hu ?_ hus, hvs⟩
      · rcases List.eq_nil_or_concat' front with rfl | ⟨front, d, rfl⟩
        · -- what stands directly before the run is no literal, because the literal would go on with the run
          have hu' : ∀ text, u ≠ num text := by
            intro text' hu'
            obtain ⟨c, hc, hn⟩ := exists_head?_of_numerals hne hnum back
            rw [hend ⟨text', hu'⟩ c hc] at hn
            cases hn
          obtain ⟨d, hd, hn, -⟩ := exists_char_of_not_num hu'
          simpa [hd] using hn
        · simpa using hbefore
      · intro hunum c hc
        refine hend hunum c ?_
        cases front with
        | nil => cases hc
        | cons d front => exact hc

/-- A whole run is cut off as a literal. -/
theorem IsRun.close_scan (h : IsRun cs front run back) :
    (scan cs).close = (scan front).close ++ num (String.ofList run) :: (scan back).close := by
  obtain ⟨rfl, hne, hnum, hbefore, hafter⟩ := h
  have hcut := close_scan_text (isLexeme_num_ofList hne hnum) fun _ => run_scan_eq_nil_iff.mpr hafter
  rw [show (num (String.ofList run)).text.toList = run from String.toList_ofList] at hcut
  rw [List.append_assoc, close_scan_append (Or.inl hbefore), hcut]

/-- **The literals are the whole runs of numerals**: such a run of the text stands for each of them, between the texts of
the tokens before and behind it, and each whole run is one of them. -/
theorem eq_append_num_iff (h : tokenize s = .ok ts) :
    ts = us ++ num text :: vs ↔
      ∃ front back, IsRun s.toList front text.toList back ∧
        tokenize (String.ofList front) = .ok us ∧ tokenize (String.ofList back) = .ok vs := by
  constructor
  · rintro rfl
    obtain ⟨front, back, hrun, hus, hvs⟩ := (tokenize_eq_ok_iff_layout.mp h).exists_isRun
    refine ⟨front, back, hrun, tokenize_eq_ok_iff_layout.mpr ?_, tokenize_eq_ok_iff_layout.mpr ?_⟩
    · rwa [String.toList_ofList]
    · rwa [String.toList_ofList]
  · rintro ⟨front, back, hrun, hus, hvs⟩
    obtain ⟨-, rfl⟩ := tokenize_eq_ok_iff.mp h
    obtain ⟨-, rfl⟩ := tokenize_eq_ok_iff.mp hus
    obtain ⟨-, rfl⟩ := tokenize_eq_ok_iff.mp hvs
    rw [hrun.close_scan]
    simp

/-- Two literals in a row are two whole runs with blanks between them. -/
theorem exists_isRun_of_adjacent {x y : String} (h : tokenize s = .ok (us ++ num x :: num y :: vs)) :
    ∃ front blanks back, blanks ≠ [] ∧ (∀ c ∈ blanks, isBlank c = true) ∧
      IsRun s.toList front x.toList (blanks ++ y.toList ++ back) ∧
      IsRun s.toList (front ++ x.toList ++ blanks) y.toList back ∧
      tokenize (String.ofList front) = .ok us ∧ tokenize (String.ofList back) = .ok vs := by
  obtain ⟨front, rest, hrunx, hfront, hrest⟩ := (eq_append_num_iff h).mp rfl
  have hlayout := tokenize_eq_ok_iff_layout.mp hrest
  rw [String.toList_ofList] at hlayout
  cases hlayout with
  | @cons blanks _ _ back hb hy hend hback =>
    have hne : y.toList ≠ [] := String.toList_eq_nil_iff.not.mpr hy.1
    have hblanks : blanks ≠ [] := by
      rintro rfl
      obtain ⟨c, hc, hn⟩ := exists_head?_of_numerals hne hy.2 back
      rw [hrunx.after c hc] at hn
      cases hn
    have hbefore : ∀ c ∈ (front ++ x.toList ++ blanks).getLast?, isNumeral c = false := by
      rw [List.getLast?_append_of_ne_nil _ hblanks]
      exact getLast?_blanks hb
    have hsplit : s.toList = front ++ x.toList ++ blanks ++ y.toList ++ back := by
      rw [hrunx.split]
      simp [text]
    refine ⟨front, blanks, back, hblanks, hb, hrunx, ⟨hsplit, hne, hy.2, hbefore, hend ⟨y, rfl⟩⟩, hfront, ?_⟩
    rw [tokenize_eq_ok_iff_layout, String.toList_ofList]
    exact hback

end Literals

/-! ## Cutting a text -/

section Munch

/-- What tokens have of the text they are cut from: all its visible characters, and its whole runs of numerals for
literals, two of which in a row have blanks between them. -/
structure MunchedFrom (s : String) (ts : List Token) : Prop where
  texts : (ts.flatMap fun t => t.text.toList) = s.toList.filter fun c => !isBlank c
  literals : ∀ text, num text ∈ ts → text ≠ "" ∧ ∀ c ∈ text.toList, c.isDigit = true ∨ c = '.'
  runs : ∀ us text vs, ts = us ++ num text :: vs ↔
    ∃ front back, IsRun s.toList front text.toList back ∧
      tokenize (String.ofList front) = .ok us ∧ tokenize (String.ofList back) = .ok vs
  parted : ∀ us x y vs, ts = us ++ num x :: num y :: vs →
    ∃ front blanks back, blanks ≠ [] ∧ (∀ c ∈ blanks, isBlank c = true) ∧
      IsRun s.toList front x.toList (blanks ++ y.toList ++ back) ∧
      IsRun s.toList (front ++ x.toList ++ blanks) y.toList back ∧
      tokenize (String.ofList front) = .ok us ∧ tokenize (String.ofList back) = .ok vs

theorem munchedFrom_of_tokenize (h : tokenize s = .ok ts) : MunchedFrom s ts where
  texts := (tokenize_eq_ok_iff_layout.mp h).filter_isVisible.symm
  literals := by
    intro text hmem
    obtain ⟨hne, hnum⟩ := isLexeme_of_tokenize h (num text) hmem
    exact ⟨hne, fun c hc => isNumeral_iff.mp (hnum c hc)⟩
  runs := fun _ _ _ => eq_append_num_iff h
  parted := by
    rintro us x y vs rfl
    exact exists_isRun_of_adjacent h

/-- **A text is cut** exactly if it keeps to the alphabet, and then without a loss and into literals that are as long as
they can be.  Otherwise the first character outside the alphabet is reported with its position, whatever stands before
and after it. -/
theorem tokenize_munches (s : String) :
    ((∃ ts, tokenize s = .ok ts) ↔ ∀ c ∈ s.toList, InAlphabet c) ∧
    (∀ ts, tokenize s = .ok ts → MunchedFrom s ts) ∧
    ∀ front c back, s.toList = front ++ c :: back → (∀ d ∈ front, InAlphabet d) → ¬InAlphabet c →
      ∃ f, tokenize s = .error f ∧ f.kind = .surface ∧
        f.detail = "caractère inattendu '" ++ c.toString ++ "' (position " ++ front.length.repr ++ ")" := by
  have halphabet : ∀ c, InAlphabet c ↔ isKnown c = true := fun c => isKnown_iff.symm
  simp only [halphabet]
  refine ⟨?_, fun ts h => munchedFrom_of_tokenize h, ?_⟩
  · constructor
    · rintro ⟨ts, h⟩
      exact (tokenize_eq_ok_iff.mp h).1
    · intro hk
      exact ⟨_, tokenize_eq_ok_iff.mpr ⟨hk, rfl⟩⟩
  · intro front c back hs hfront hc
    have hc : isKnown c = false := Bool.eq_false_iff.mpr hc
    exact ⟨_, tokenize_eq_error_iff.mpr ⟨front, c, back, hs, hfront, hc, rfl⟩, rfl, rfl⟩

/-- Two literals with a blank between them, and a digit of another alphabet. -/
theorem tokenize_munches_foreign_digit :
    tokenize "1.\u20032+.5" = .ok [num "1.", num "2", op .add, num ".5"] ∧
    MunchedFrom "1.\u20032+.5" [num "1.", num "2", op .add, num ".5"] ∧
    "\u20039+\u0663)".toList = ['\u2003', '9', '+'] ++ '\u0663' :: [')'] ∧
    (∀ d ∈ ['\u2003', '9', '+'], InAlphabet d) ∧ ¬InAlphabet '\u0663' ∧
    ∃ f, tokenize "\u20039+\u0663)" = .error f ∧ f.kind = .surface ∧
      f.detail = "caractère inattendu '\u0663' (position 3)" := by
  have h : tokenize "1.\u20032+.5" = .ok [num "1.", num "2", op .add, num ".5"] := rfl
  have hall : ['\u2003', '9', '+'].all isKnown = true := by decide
  have hfront : ∀ d ∈ ['\u2003', '9', '+'], InAlphabet d := fun d hd => isKnown_iff.mp (List.all_eq_true.mp hall d hd)
  have hforeign : ¬InAlphabet '\u0663' := by
    rw [← isKnown_iff]
    decide
  exact ⟨h, (tokenize_munches _).2.1 _ h, rfl, hfront, hforeign,
    (tokenize_munches "\u20039+\u0663)").2.2 ['\u2003', '9', '+'] '\u0663' [')'] rfl hfront hforeign⟩

end Munch

/-! ## Written tokens -/

section Written

theorem parse_eq_error (ht : tokenize s = .ok ts) (h : ts.any isParen = true) : Rpn.parse s = .error .parenInRpn := by
  simp [Rpn.parse, ht, h, bind, Except.bind, throw, throwThe, MonadExceptOf.throw]

/-- The lists of lexemes are those that texts are cut into. -/
theorem exists_tokenize_iff : (∃ s, tokenize s = .ok ts) ↔ ∀ t ∈ ts, t.IsLexeme := by
  constructor
  · rintro ⟨s, h⟩
    exact isLexeme_of_tokenize h
  · intro h
    exact ⟨render ts, tokenize_render h⟩

/-- **Reading undoes writing** on the lists of lexemes and on no others, and these are the lists that texts are cut
into.  As a reverse Polish text such a list is read back if it has no parenthesis.  So no two of them are written
alike. -/
theorem render_reads_back (ts : List Token) :
    (tokenize (render ts) = .ok ts ↔ ∀ t ∈ ts, t.IsLexeme) ∧
    ((∃ s, tokenize s = .ok ts) ↔ ∀ t ∈ ts, t.IsLexeme) ∧
    ((∀ t ∈ ts, t.IsLexeme) →
      (ts.any isParen = false → Rpn.parse (render ts) = .ok ts) ∧
      (ts.any isParen = true → ∃ f, Rpn.parse (render ts) = .error f ∧ f.kind = .rpn ∧
        f.detail = "parenthèse inattendue en postfixe") ∧
      ∀ us, (∀ t ∈ us, t.IsLexeme) → render us = render ts → us = ts) := by
  refine ⟨⟨isLexeme_of_tokenize, tokenize_render⟩, exists_tokenize_iff, fun hts => ⟨?_, ?_, ?_⟩⟩
  · exact parse_eq_ok (tokenize_render hts)
  · intro hparen
    exact ⟨_, parse_eq_error (tokenize_render hts) hparen, rfl, rfl⟩
  · intro us hus hsame
    have hread := tokenize_render hus
    rw [hsame, tokenize_render hts] at hread
    exact (Except.ok.inj hread).symm

/-- Two literals side by side, and a group. -/
theorem render_reads_back_adjacent :
    (∀ t ∈ [num "1.2", num ".", op .sub], t.IsLexeme) ∧
    Rpn.parse (render [num "1.2", num ".", op .sub]) = .ok [num "1.2", num ".", op .sub] ∧
    (∀ t ∈ [num "1", lparen], t.IsLexeme) ∧
    (∃ f, Rpn.parse (render [num "1", lparen]) = .error f ∧ f.kind = .rpn ∧
      f.detail = "parenthèse inattendue en postfixe") := by
  have hadjacent : ∀ t ∈ [num "1.2", num ".", op .sub], t.IsLexeme := exists_tokenize_iff.mp ⟨"1.2 .-", rfl⟩
  have hgroup : ∀ t ∈ [num "1", lparen], t.IsLexeme := exists_tokenize_iff.mp ⟨"1(", rfl⟩
  exact ⟨hadjacent, ((render_reads_back _).2.2 hadjacent).1 rfl, hgroup, ((render_reads_back _).2.2 hgroup).2.1 rfl⟩

/-- A literal with a blank in it is written like two literals, and is read as two. -/
example : render [num "1 2"] = render [num "1", num "2"] ∧ tokenize (render [num "1 2"]) = .ok [num "1", num "2"] := by
  decide

end Written

end DeskCalc.Token
