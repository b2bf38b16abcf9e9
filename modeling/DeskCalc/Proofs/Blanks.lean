import DeskCalc.Proofs.Pipeline

/-!
# DeskCalc.Proofs.Blanks — blanks that make no difference

* The check looks for nothing that has a blank in it, so an entry passes it if it does without some of its blanks
  (`check_of_filter`), and the blanks at the ends do not matter at all (`check_trimmed`).
* Blanks at the ends of a text leave its tokens as they are (`tokenize_trimmed`).
* `ofEntry_trimmed`: hence an entry with tokens has the same working without the blanks at its ends.
-/

namespace DeskCalc

open Token Text

variable {xs cs blanks : List Char} {s w : String} {ts : List Token} {keep : Char → Bool}

/-! ## The check -/

section Check

theorem Surface.check_trimmed (s : String) : Surface.check (trimmed s) = Surface.check s := by
  unfold Surface.check
  rw [toList_trimmed, trim_trim]

namespace Text

theorem firstVisible?_filter (h : ∀ c, isVisible c = true → keep c = true) (cs : List Char) :
    firstVisible? (cs.filter keep) = firstVisible? cs := by
  have heq : (fun c => decide (keep c = true ∧ isVisible c = true)) = isVisible := by
    funext c
    cases hv : isVisible c with
    | true => simp [h c hv]
    | false => simp
  rw [firstVisible?, List.find?_filter, heq, ← firstVisible?]

theorem lastVisible?_filter (h : ∀ c, isVisible c = true → keep c = true) (cs : List Char) :
    lastVisible? (cs.filter keep) = lastVisible? cs := by
  rw [lastVisible?, ← List.filter_reverse, firstVisible?_filter h, ← lastVisible?]

end Text

namespace Surface

theorem parenCount_filter (h : ∀ c, isVisible c = true → keep c = true) (cs : List Char) :
    parenCount (cs.filter keep) = parenCount cs := by
  have hparen : ∀ c : Char, (c == '(' || c == ')') = true → keep c = true := by
    intro c hc
    rcases Bool.or_eq_true_iff.mp hc with he | he
    · exact h c (eq_of_beq he ▸ by decide)
    · exact h c (eq_of_beq he ▸ by decide)
  rw [parenCount, List.countP_filter, parenCount]
  refine List.countP_congr fun c _ => ?_
  rw [Bool.and_eq_true]
  exact ⟨And.left, fun hc => ⟨hc, hparen c hc⟩⟩

/-- A barred pattern is not lost with the blanks. -/
theorem infix_filter_of_barred (h : ∀ c, isVisible c = true → keep c = true) {p : String} (hp : p ∈ barredPatterns)
    (hi : p.toList <:+: cs) : p.toList <:+: cs.filter keep := by
  have hall : ∀ p ∈ barredPatterns, p.toList.all isVisible = true := by decide
  have hkeep : p.toList.filter keep = p.toList :=
    List.filter_eq_self.mpr fun c hc => h c (List.all_eq_true.mp (hall p hp) c hc)
  rw [← hkeep]
  exact hi.filter keep

/-- What passes the check without some of its blanks passes it with them. -/
theorem check_of_filter (h : ∀ c, isVisible c = true → keep c = true) (hw : w.toList = s.toList.filter keep)
    (hc : check w = .ok ()) : check s = .ok () := by
  obtain ⟨hfirst, hlast, hparens, hpatterns⟩ := check_eq_ok_iff.mp hc
  rw [hw, firstVisible?_filter h] at hfirst
  rw [hw, lastVisible?_filter h] at hlast
  rw [hw, parenCount_filter h] at hparens
  refine check_eq_ok_iff.mpr ⟨hfirst, hlast, hparens, fun p hp hi => hpatterns p hp ?_⟩
  rw [hw]
  exact infix_filter_of_barred h hp hi

end Surface

end Check

/-! ## The tokens -/

section Tokens

namespace Token

/-- In front of a text that does not start with a numeral, blanks change nothing. -/
theorem scan_blanks_append (hb : ∀ c ∈ blanks, isBlank c = true) (hcs : (scan cs).run = []) :
    scan (blanks ++ cs) = scan cs := by
  induction blanks with
  | nil => rfl
  | cons c blanks ih =>
    have hrest := ih fun d hd => hb d (List.mem_cons_of_mem _ hd)
    rw [List.cons_append, scan_blank (hb c (List.mem_cons_self ..)), hrest, close_of_run_nil hcs]
    exact congrArg (Scan.mk · (scan cs).rest) hcs.symm

theorem head?_blanks (hb : ∀ c ∈ blanks, isBlank c = true) : ∀ c ∈ blanks.head?, isNumeral c = false :=
  fun c hc => isNumeral_of_isBlank (hb c (List.mem_of_mem_head? hc))

theorem close_scan_append_blanks (hb : ∀ c ∈ blanks, isBlank c = true) (cs : List Char) :
    (scan (cs ++ blanks)).close = (scan cs).close := by
  rw [close_scan_append (Or.inr (head?_blanks hb)), close_scan_of_blanks hb, List.append_nil]

theorem tokenize_blanks (h : ∀ c ∈ w.toList, isBlank c = true) : tokenize w = .ok [] :=
  tokenize_eq_ok_iff.mpr ⟨fun c hc => isKnown_of_isBlank (h c hc), close_scan_of_blanks h⟩

theorem tokenize_trimmed (h : tokenize s = .ok ts) : tokenize (trimmed s) = .ok ts := by
  obtain ⟨hknown, hclose⟩ := tokenize_eq_ok_iff.mp h
  obtain ⟨before, after, hs, hb, ha, -⟩ := trim_split s.toList
  rw [tokenize_eq_ok_iff, toList_trimmed]
  constructor
  · intro c hc
    refine hknown c ?_
    rw [hs]
    exact List.mem_append_left _ (List.mem_append_right _ hc)
  · rw [hs, List.append_assoc, close_scan_blanks hb, close_scan_append_blanks ha] at hclose
    exact hclose

end Token

end Tokens

/-! ## The working -/

section Workings

theorem Working.ofEntry_congr (h : Working.tokensOf s = Working.tokensOf w) :
    Working.ofEntry s = Working.ofEntry w := by
  unfold Working.ofEntry
  rw [h]

/-- Blanks at the ends of an entry with tokens do not show in its working. -/
theorem ofEntry_trimmed (h : tokenize s = .ok ts) : Working.ofEntry (trimmed s) = Working.ofEntry s := by
  refine Working.ofEntry_congr ?_
  rw [Working.tokensOf, Working.tokensOf, Surface.check_trimmed, tokenize_trimmed h, h]

end Workings

end DeskCalc
