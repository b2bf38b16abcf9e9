import DeskCalc.Surface
import Mathlib.Data.List.DropRight

/-!
# DeskCalc.Proofs.Surface — what the check of an entry comes to

* `trim_split`: trimming takes blanks off both ends, down to the first and the last visible character.
* `infix_append_cons_iff`: a pattern without some separator stands on one side of it.
* `check_eq_ok_iff`: so the check speaks about the visible ends of the entry, the number of its parentheses and the
  patterns in it, whatever blanks stand around it.
-/

namespace DeskCalc

namespace Text

variable {c : Char} {cs xs ys pattern blanks : List Char}

/-- A character that is not blank. -/
def isVisible (c : Char) : Bool := !isBlank c

/-- The first visible character of a text. -/
def firstVisible? (cs : List Char) : Option Char := cs.find? isVisible

/-- The last visible character of a text. -/
def lastVisible? (cs : List Char) : Option Char := firstVisible? cs.reverse

/-! ## Trimming -/

section Trimming

theorem head?_visible_dropWhile : ∀ c ∈ (cs.dropWhile isBlank).head?, isVisible c = true := by
  intro c hc
  have h := List.head?_dropWhile_not isBlank cs
  rw [Option.mem_def.mp hc] at h
  simpa [isVisible] using h

theorem takeWhile_append_trim (cs : List Char) :
    cs = cs.takeWhile isBlank ++ trim cs ++ (cs.dropWhile isBlank).rtakeWhile isBlank := by
  have htrim : trim cs = (cs.dropWhile isBlank).rdropWhile isBlank := rfl
  rw [htrim, List.append_assoc, List.rdropWhile_append_rtakeWhile, List.takeWhile_append_dropWhile]

/-- A text is its trimmed text with blanks around it, and the trimmed text is visible at both ends. -/
theorem trim_split (cs : List Char) :
    ∃ before after, cs = before ++ trim cs ++ after ∧ (∀ c ∈ before, isBlank c = true) ∧
      (∀ c ∈ after, isBlank c = true) ∧ (∀ c ∈ (trim cs).head?, isVisible c = true) ∧
      (∀ c ∈ (trim cs).getLast?, isVisible c = true) := by
  refine ⟨_, _, takeWhile_append_trim cs, ?_, ?_, ?_, ?_⟩
  · exact fun c hc => List.mem_takeWhile_imp hc
  · exact fun c hc => List.mem_rtakeWhile_imp hc
  · intro c hc
    obtain ⟨rest, hrest⟩ : trim cs <+: cs.dropWhile isBlank := List.rdropWhile_prefix isBlank _
    have hhead : c ∈ (cs.dropWhile isBlank).head? := by
      rw [← hrest, List.head?_append, Option.mem_def.mp hc]
      rfl
    exact head?_visible_dropWhile c hhead
  · intro c hc
    have hne : trim cs ≠ [] := by
      rintro h0
      rw [h0] at hc
      cases hc
    have hlast : isBlank ((trim cs).getLast hne) = false :=
      Bool.eq_false_iff.mpr (List.rdropWhile_last_not isBlank (cs.dropWhile isBlank) hne)
    rw [List.getLast?_eq_some_getLast hne] at hc
    obtain rfl := Option.some.inj hc
    rw [isVisible, hlast]
    rfl

theorem trim_of_visible_ends (hhead : ∀ c ∈ cs.head?, isVisible c = true)
    (hlast : ∀ c ∈ cs.getLast?, isVisible c = true) : trim cs = cs := by
  have hdrop : cs.dropWhile isBlank = cs := by
    cases cs with
    | nil => rfl
    | cons c cs =>
      have hc : isBlank c = false := by simpa [isVisible] using hhead c rfl
      simp [hc]
  rw [trim, hdrop]
  rcases List.eq_nil_or_concat' cs with rfl | ⟨front, c, rfl⟩
  · rfl
  · have hc : isBlank c = false := by simpa [isVisible] using hlast c (by simp)
    exact dropEndWhile_concat_of_neg hc front

theorem trim_trim (cs : List Char) : trim (trim cs) = trim cs := by
  obtain ⟨-, -, -, -, -, hhead, hlast⟩ := trim_split cs
  exact trim_of_visible_ends hhead hlast

theorem trimmed_trimmed (s : String) : trimmed (trimmed s) = trimmed s := by
  rw [trimmed, toList_trimmed, trim_trim, ← trimmed]

theorem firstVisible?_blanks_append (h : ∀ c ∈ blanks, isBlank c = true) (cs : List Char) :
    firstVisible? (blanks ++ cs) = firstVisible? cs := by
  have hnone : blanks.find? isVisible = none := by
    simpa [List.find?_eq_none, isVisible] using h
  rw [firstVisible?, List.find?_append, hnone]
  rfl

theorem firstVisible?_of_head? (h : ∀ c ∈ cs.head?, isVisible c = true) (hb : ∀ c ∈ blanks, isBlank c = true) :
    firstVisible? (cs ++ blanks) = cs.head? := by
  cases cs with
  | nil =>
    rw [List.nil_append, ← List.append_nil blanks, firstVisible?_blanks_append hb]
    rfl
  | cons c cs => simp [firstVisible?, h c rfl]

theorem firstVisible?_append_cons (hc : isVisible c = true) (xs ys : List Char) :
    firstVisible? (xs ++ c :: ys) = (firstVisible? xs).or (some c) := by
  simp [firstVisible?, List.find?_append, hc]

theorem lastVisible?_append_cons (hc : isVisible c = true) (xs ys : List Char) :
    lastVisible? (xs ++ c :: ys) = (lastVisible? ys).or (some c) := by
  have hrev : (xs ++ c :: ys).reverse = ys.reverse ++ c :: xs.reverse := by simp
  rw [lastVisible?, hrev, firstVisible?_append_cons hc, ← lastVisible?]

theorem head?_trim (cs : List Char) : (trim cs).head? = firstVisible? cs := by
  obtain ⟨before, after, hcs, hb, ha, hhead, -⟩ := trim_split cs
  conv_rhs => rw [hcs, List.append_assoc, firstVisible?_blanks_append hb]
  exact (firstVisible?_of_head? hhead ha).symm

theorem getLast?_trim (cs : List Char) : (trim cs).getLast? = lastVisible? cs := by
  obtain ⟨before, after, hcs, hb, ha, -, hlast⟩ := trim_split cs
  have hrev : cs.reverse = after.reverse ++ ((trim cs).reverse ++ before.reverse) := by
    conv_lhs => rw [hcs]
    simp
  rw [lastVisible?, hrev, firstVisible?_blanks_append (by simpa using ha),
    firstVisible?_of_head? (by simpa using hlast) (by simpa using hb), List.head?_reverse]

theorem infix_of_blanks_append (hp : ∀ c ∈ pattern.head?, isVisible c = true) (hne : pattern ≠ [])
    (hb : ∀ c ∈ blanks, isBlank c = true) (h : pattern <:+: blanks ++ cs) : pattern <:+: cs := by
  induction blanks with
  | nil => exact h
  | cons b blanks ih =>
    rw [List.cons_append, List.infix_cons_iff] at h
    rcases h with hpre | h
    · obtain ⟨d, rest, rfl⟩ := List.exists_cons_of_ne_nil hne
      obtain ⟨rfl, -⟩ := List.cons_prefix_cons.mp hpre
      have hv := hp d rfl
      rw [isVisible, hb d (List.mem_cons_self ..)] at hv
      cases hv
    · exact ih (fun c hc => hb c (List.mem_cons_of_mem _ hc)) h

/-- A pattern without blanks at its ends stands in a text exactly if it stands in the trimmed text. -/
theorem infix_trim_iff (hne : pattern ≠ []) (hhead : ∀ c ∈ pattern.head?, isVisible c = true)
    (hlast : ∀ c ∈ pattern.getLast?, isVisible c = true) : pattern <:+: trim cs ↔ pattern <:+: cs := by
  obtain ⟨before, after, hcs, hb, ha, -⟩ := trim_split cs
  constructor
  · intro h
    rw [hcs, List.append_assoc]
    exact h.trans ⟨before, after, by simp⟩
  · intro h
    rw [hcs, List.append_assoc] at h
    have h₁ := infix_of_blanks_append hhead hne hb h
    rw [← List.reverse_infix, List.reverse_append] at h₁
    have h₂ := infix_of_blanks_append (by simpa using hlast) (by simpa using hne) (by simpa using ha) h₁
    exact List.reverse_infix.mp h₂

end Trimming

/-! ## Separators -/

section Separators

variable {α : Type} {c : α} {xs ys pattern : List α}

theorem prefix_of_prefix_append_cons (hc : c ∉ pattern) (h : pattern <+: xs ++ c :: ys) : pattern <+: xs := by
  by_cases hlen : pattern.length ≤ xs.length
  · exact List.prefix_of_prefix_length_le h (List.prefix_append _ _) hlen
  · -- a longer one would contain the separator
    have hsep : xs ++ [c] <+: pattern := by
      refine List.prefix_of_prefix_length_le ?_ h ?_
      · simp
      · simp
        omega
    exact absurd (hsep.subset (by simp)) hc

/-- A pattern without the separator stands on one side of it. -/
theorem infix_append_cons_iff (hc : c ∉ pattern) :
    pattern <:+: xs ++ c :: ys ↔ pattern <:+: xs ∨ pattern <:+: ys := by
  constructor
  · intro h
    induction xs with
    | nil =>
      rcases List.infix_cons_iff.mp h with hp | hi
      · have hnil : pattern <+: [] := prefix_of_prefix_append_cons hc hp
        exact Or.inl hnil.isInfix
      · exact Or.inr hi
    | cons d xs ih =>
      rcases List.infix_cons_iff.mp h with hp | hi
      · have hfront : pattern <+: d :: xs := prefix_of_prefix_append_cons hc hp
        exact Or.inl hfront.isInfix
      · exact (ih hi).imp_left fun hi => hi.trans (List.suffix_cons d xs).isInfix
  · rintro (h | h)
    · exact h.trans (List.prefix_append _ _).isInfix
    · exact h.trans ((List.suffix_cons c ys).trans (List.suffix_append _ _)).isInfix

end Separators

end Text

namespace Surface

open Text

variable {s : String} {cs : List Char}

/-! ## The check -/

theorem parenCount_blanks (h : ∀ c ∈ cs, isBlank c = true) : parenCount cs = 0 := by
  refine List.countP_eq_zero.mpr fun c hc hp => ?_
  have hb := h c hc
  rcases Bool.or_eq_true_iff.mp hp with he | he
  · rw [eq_of_beq he] at hb
    exact absurd hb (by decide)
  · rw [eq_of_beq he] at hb
    exact absurd hb (by decide)

theorem parenCount_trim (cs : List Char) : parenCount (trim cs) = parenCount cs := by
  obtain ⟨before, after, hcs, hb, ha, -⟩ := trim_split cs
  conv_rhs => rw [hcs]
  have hbefore := parenCount_blanks hb
  have hafter := parenCount_blanks ha
  simp only [parenCount] at hbefore hafter ⊢
  rw [List.countP_append, List.countP_append, hbefore, hafter]
  omega

theorem leadingFault?_eq_none_iff :
    leadingFault? cs = none ↔ ∀ c ∈ cs.head?, ∀ o, Operator.ofChar? c = some o → o = .sub := by
  cases cs with
  | nil => simp [leadingFault?]
  | cons c cs =>
    cases h : Operator.ofChar? c with
    | none => simp [leadingFault?, h]
    | some o => cases o <;> simp [leadingFault?, h]

theorem trailingFault?_eq_none_iff : trailingFault? cs = none ↔ ∀ c ∈ cs.getLast?, Operator.ofChar? c = none := by
  rw [trailingFault?, Option.map_eq_none_iff]
  cases h : cs.getLast? with
  | none => simp
  | some c => simp

theorem parenFault?_eq_none_iff : parenFault? cs = none ↔ parenCount cs % 2 = 0 := by
  unfold parenFault?
  split_ifs with h <;> simp [h]

theorem patternFault?_eq_none_iff : patternFault? cs = none ↔ ∀ p ∈ barredPatterns, ¬p.toList <:+: cs := by
  rw [patternFault?, Option.map_eq_none_iff, List.find?_eq_none]
  simp only [occurs_iff]

theorem check_eq_ok_iff_looks : check s = .ok () ↔ ∀ look ∈ looks, look (trim s.toList) = none := by
  rw [← List.findSome?_eq_none_iff, check]
  cases looks.findSome? fun look => look (trim s.toList) with
  | none => simp
  | some f => simp

/-- No barred pattern has a blank at an end. -/
theorem infix_trim_iff_of_barred {p : String} (h : p ∈ barredPatterns) : p.toList <:+: trim cs ↔ p.toList <:+: cs := by
  have hall : ∀ p ∈ barredPatterns, p.toList ≠ [] ∧ p.toList.head?.all isVisible = true ∧
      p.toList.getLast?.all isVisible = true := by decide
  obtain ⟨hne, hhead, hlast⟩ := hall p h
  refine infix_trim_iff hne ?_ ?_
  · intro c hc
    simpa [Option.mem_def.mp hc] using hhead
  · intro c hc
    simpa [Option.mem_def.mp hc] using hlast

/-- **The check**, in terms of the entry as it was typed. -/
theorem check_eq_ok_iff :
    check s = .ok () ↔
      (∃ c, firstVisible? s.toList = some c ∧ ∀ o, Operator.ofChar? c = some o → o = .sub) ∧
      (∀ c, lastVisible? s.toList = some c → Operator.ofChar? c = none) ∧
      parenCount s.toList % 2 = 0 ∧ ∀ p ∈ barredPatterns, ¬p.toList <:+: s.toList := by
  have hpat : (∀ p ∈ barredPatterns, ¬p.toList <:+: trim s.toList) ↔
      ∀ p ∈ barredPatterns, ¬p.toList <:+: s.toList :=
    forall₂_congr fun p hp => not_congr (infix_trim_iff_of_barred hp)
  have hempty : emptyFault? (trim s.toList) = none ↔ firstVisible? s.toList ≠ none := by
    rw [← head?_trim]
    unfold emptyFault?
    split_ifs with h <;> simp [h]
  rw [check_eq_ok_iff_looks, looks]
  simp only [List.forall_mem_cons, List.not_mem_nil, false_imp_iff, implies_true, and_true, hempty, hpat,
    leadingFault?_eq_none_iff, trailingFault?_eq_none_iff, parenFault?_eq_none_iff, patternFault?_eq_none_iff,
    parenCount_trim, head?_trim, getLast?_trim, Option.mem_def]
  rw [← and_assoc]
  refine and_congr_left fun _ => ?_
  cases firstVisible? s.toList <;> simp

/-- The five sorts of faults that the check finds. -/
theorem cases_of_look {look : List Char → Option Fault} {f : Fault} (hl : look ∈ looks) (h : look cs = some f) :
    f = .emptyEntry ∨ (∃ o, f = .leadingOperator o) ∨ (∃ o, f = .trailingOperator o) ∨ (∃ n, f = .oddParens n) ∨
      ∃ p, f = .barredPattern p := by
  simp only [looks, List.mem_cons, List.not_mem_nil, or_false] at hl
  rcases hl with rfl | rfl | rfl | rfl | rfl
  · unfold emptyFault? at h
    split_ifs at h
    exact Or.inl (Option.some.inj h).symm
  · unfold leadingFault? at h
    split at h
    · cases h
    · cases h
    · exact Or.inr (Or.inl ⟨_, (Option.some.inj h).symm⟩)
  · obtain ⟨o, -, rfl⟩ := Option.map_eq_some_iff.mp h
    exact Or.inr (Or.inr (Or.inl ⟨o, rfl⟩))
  · unfold parenFault? at h
    split_ifs at h
    exact Or.inr (Or.inr (Or.inr (Or.inl ⟨_, (Option.some.inj h).symm⟩)))
  · obtain ⟨p, -, rfl⟩ := Option.map_eq_some_iff.mp h
    exact Or.inr (Or.inr (Or.inr (Or.inr ⟨p, rfl⟩)))

theorem cases_of_check {f : Fault} (h : check s = .error f) :
    f = .emptyEntry ∨ (∃ o, f = .leadingOperator o) ∨ (∃ o, f = .trailingOperator o) ∨ (∃ n, f = .oddParens n) ∨
      ∃ p, f = .barredPattern p := by
  unfold check at h
  split at h
  · rename_i g hg
    obtain ⟨look, hl, hlook⟩ := List.exists_of_findSome?_eq_some hg
    obtain rfl : g = f := Except.error.inj h
    exact cases_of_look hl hlook
  · cases h

/-- What the check finds is in the surface. -/
theorem kind_of_check {f : Fault} (h : check s = .error f) : f.kind = .surface := by
  rcases cases_of_check h with rfl | ⟨o, rfl⟩ | ⟨o, rfl⟩ | ⟨n, rfl⟩ | ⟨p, rfl⟩ <;> rfl

end Surface

end DeskCalc
