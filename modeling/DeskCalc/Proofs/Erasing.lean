import DeskCalc.Proofs.Keying

/-!
# DeskCalc.Proofs.Erasing — what the erasing button takes away

* `Stripped cs xs`: `xs` is `cs` without the spaces at its end.  `CutAt m cs xs`: `xs` is the beginning of `cs` that
  ends at its `m`-th character other than the space; there is only one (`CutAt.unique`).
* Every key puts its symbol last, with at most a space behind it, and may change the spaces at the end of the text
  before it, nothing else.  So erasing after a key leaves that text stripped (`eraseLast_insert`).
* Erasing cuts a text at its last character but one, spaces not counted (`cutAt_eraseLast`), so `k` clicks go back by
  `k` of them (`cutAt_after_erase`).
-/

namespace DeskCalc.Panel

open Text

variable {cs xs ys : List Char} {c : Char} {m n : ℕ}

/-! ## Spaces at the end -/

section Strip

/-- `xs` is the text `cs` without the spaces at its end. -/
def Stripped (cs xs : List Char) : Prop := (∃ n, cs = xs ++ List.replicate n ' ') ∧ xs.getLast? ≠ some ' '

/-- A text that does not end with a space ends with none. -/
theorem eq_of_append_spaces (h : cs = xs ++ List.replicate n ' ') (hlast : cs.getLast? ≠ some ' ') : xs = cs := by
  subst h
  rcases Nat.eq_zero_or_pos n with rfl | hn
  · simp
  · exact absurd (by simp [List.getLast?_replicate, hn.ne']) hlast

theorem dropSpaces_concat_space (cs : List Char) : dropSpaces (cs ++ [' ']) = dropSpaces cs :=
  dropSpaces_append_spaces cs 1

theorem stripped_dropSpaces (cs : List Char) : Stripped cs (dropSpaces cs) := by
  induction cs using List.reverseRecOn with
  | nil => exact ⟨⟨0, rfl⟩, by simp [dropSpaces]⟩
  | append_singleton cs c ih =>
    by_cases hc : c = ' '
    · obtain ⟨⟨n, hn⟩, hlast⟩ := ih
      rw [hc, dropSpaces_concat_space]
      refine ⟨⟨n + 1, ?_⟩, hlast⟩
      rw [List.replicate_succ', ← List.append_assoc, ← hn]
    · rw [dropSpaces_concat hc]
      exact ⟨⟨0, by simp⟩, by simpa using hc⟩

theorem dropSpaces_dropSpaces (cs : List Char) : dropSpaces (dropSpaces cs) = dropSpaces cs := by
  obtain ⟨n, hn⟩ := (stripped_dropSpaces (dropSpaces cs)).1
  exact eq_of_append_spaces hn (stripped_dropSpaces cs).2

end Strip

/-! ## Erasing after a key -/

section Insert

theorem eraseLast_concat_space (cs : List Char) : eraseLast (cs ++ [' ']) = eraseLast cs := by
  unfold eraseLast
  rw [dropSpaces_concat_space]

/-- Erasing takes the last character, and the spaces before it. -/
theorem eraseLast_concat (hc : c ≠ ' ') (cs : List Char) : eraseLast (cs ++ [c]) = dropSpaces cs := by
  unfold eraseLast
  rw [dropSpaces_concat hc, List.dropLast_concat]

/-- **Erasing undoes a key**, up to the spaces at the end of the text before it. -/
theorem eraseLast_insert (k : Key) (cs : List Char) : eraseLast (k.insert cs) = dropSpaces cs := by
  unfold Key.insert
  cases k with
  | digit d => exact eraseLast_concat (Key.digit d).symbol_ne_space cs
  | point => exact eraseLast_concat Key.point.symbol_ne_space cs
  | op o =>
    have hsplit : ∀ us : List Char, us ++ [(Key.op o).symbol, ' '] = us ++ [(Key.op o).symbol] ++ [' '] := by
      intro us
      simp
    dsimp only
    rw [hsplit, eraseLast_concat_space, eraseLast_concat (Key.op o).symbol_ne_space]
    by_cases hnil : dropSpaces cs = []
    · rw [if_pos hnil, hnil]
      rfl
    · rw [if_neg hnil, dropSpaces_concat_space, dropSpaces_dropSpaces]
  | lparen =>
    dsimp only
    rw [eraseLast_concat Key.lparen.symbol_ne_space]
    by_cases hop : Key.endsInOperand cs = true
    · rw [if_pos hop, dropSpaces_concat_space]
    · rw [if_neg hop]
  | rparen =>
    dsimp only
    rw [eraseLast_concat Key.rparen.symbol_ne_space, dropSpaces_dropSpaces]

end Insert

/-! ## Cuts -/

section Cuts

/-- The number of characters of a text, spaces not counted. -/
def ink (cs : List Char) : ℕ := cs.countP (· != ' ')

/-- `xs` is the beginning of `cs` that ends at its `m`-th character other than the space; the empty one for `m = 0`. -/
structure CutAt (m : ℕ) (cs xs : List Char) : Prop where
  begins : xs <+: cs
  ink_eq : ink xs = m
  ends : xs.getLast? ≠ some ' '

theorem ink_append (xs ys : List Char) : ink (xs ++ ys) = ink xs + ink ys := List.countP_append

theorem ink_concat_space (cs : List Char) : ink (cs ++ [' ']) = ink cs := by
  rw [ink_append]
  rfl

theorem ink_concat (hc : c ≠ ' ') (cs : List Char) : ink (cs ++ [c]) = ink cs + 1 := by
  have hone : ink [c] = 1 := by simp [ink, hc]
  rw [ink_append, hone]

theorem eq_spaces_of_ink (h : ink cs = 0) : cs = List.replicate cs.length ' ' := by
  unfold ink at h
  rw [List.countP_eq_zero] at h
  refine List.eq_replicate_iff.mpr ⟨rfl, fun c hc => ?_⟩
  simpa using h c hc

/-- A beginning with all the characters that are no spaces is the whole, if this does not end with one. -/
theorem eq_of_ink_eq (h : xs <+: ys) (hink : ink xs = ink ys) (hlast : ys.getLast? ≠ some ' ') : xs = ys := by
  obtain ⟨rest, rfl⟩ := h
  rw [ink_append] at hink
  have hrest : ink rest = 0 := by omega
  refine eq_of_append_spaces (n := rest.length) ?_ hlast
  rw [← eq_spaces_of_ink hrest]

theorem CutAt.unique (hx : CutAt m cs xs) (hy : CutAt m cs ys) : xs = ys := by
  have hink : ink xs = ink ys := hx.ink_eq.trans hy.ink_eq.symm
  rcases List.prefix_or_prefix_of_prefix hx.begins hy.begins with h | h
  · exact eq_of_ink_eq h hink hy.ends
  · exact (eq_of_ink_eq h hink.symm hx.ends).symm

theorem CutAt.eq_nil (h : CutAt 0 cs xs) : xs = [] := by
  have hspaces : xs = [] ++ List.replicate xs.length ' ' := eq_spaces_of_ink h.ink_eq
  exact (eq_of_append_spaces hspaces h.ends).symm

/-- What is cut from a beginning is cut from the whole. -/
theorem CutAt.of_begins (h : CutAt m xs ys) (hx : xs <+: cs) : CutAt m cs ys := ⟨h.begins.trans hx, h.ink_eq, h.ends⟩

theorem cutAt_dropSpaces (cs : List Char) : CutAt (ink cs) cs (dropSpaces cs) := by
  obtain ⟨⟨n, hn⟩, hlast⟩ := stripped_dropSpaces cs
  have hspaces : ink (List.replicate n ' ') = 0 := by simp [ink]
  refine ⟨⟨List.replicate n ' ', hn.symm⟩, ?_, hlast⟩
  conv_rhs => rw [hn]
  rw [ink_append, hspaces, Nat.add_zero]

/-- **Erasing** cuts a text at its last character but one, spaces not counted. -/
theorem cutAt_eraseLast (cs : List Char) : CutAt (ink cs - 1) cs (eraseLast cs) := by
  induction cs using List.reverseRecOn with
  | nil => exact ⟨List.prefix_rfl, rfl, by simp [eraseLast, dropSpaces]⟩
  | append_singleton cs c ih =>
    by_cases hc : c = ' '
    · rw [hc, eraseLast_concat_space, ink_concat_space]
      exact ih.of_begins (List.prefix_append cs [' '])
    · rw [eraseLast_concat hc, ink_concat hc, Nat.add_sub_cancel]
      exact (cutAt_dropSpaces cs).of_begins (List.prefix_append cs [c])

end Cuts

/-! ## Clicks -/

section Clicks

variable (p : Panel)

theorem entry_click_key_erase (k : Key) :
    (p.after [.click (.key k), .click .erase]).entry.toList = dropSpaces p.entry.toList := by
  show ((p.act (.click (.key k))).act (.click .erase)).entry.toList = _
  rw [entry_click_erase, entry_click_key, eraseLast_insert]

/-- Every click on the erasing button takes one more character, and the spaces on its way. -/
theorem cutAt_after_erase (n : ℕ) :
    CutAt (ink p.entry.toList - (n + 1)) p.entry.toList
      (p.after (List.replicate (n + 1) (.click .erase))).entry.toList := by
  induction n with
  | zero =>
    show CutAt _ _ (p.act (.click .erase)).entry.toList
    rw [entry_click_erase]
    exact cutAt_eraseLast p.entry.toList
  | succ n ih =>
    rw [List.replicate_succ', after_append]
    show CutAt _ _ (Panel.act _ (.click .erase)).entry.toList
    rw [entry_click_erase]
    have hstep := (cutAt_eraseLast _).of_begins ih.begins
    rw [ih.ink_eq] at hstep
    exact hstep

/-- **Erasing undoes a key and takes one character at a time.**  A key and a click on the erasing button leave the
entry without the spaces at its end, which is the entry itself if it has none there.  Spaces not counted, `n` clicks
leave the beginning without the last `n` characters, cut right behind the one before them, and nothing if there are no
more than `n`. -/
theorem erase_undoes_keys :
    (∀ k : Key, Stripped p.entry.toList (p.after [.click (.key k), .click .erase]).entry.toList ∧
      (p.entry.toList.getLast? ≠ some ' ' → (p.after [.click (.key k), .click .erase]).entry = p.entry)) ∧
    ∀ n, 1 ≤ n →
      (∀ xs, (p.after (List.replicate n (.click .erase))).entry.toList = xs ↔
        CutAt (ink p.entry.toList - n) p.entry.toList xs) ∧
      (ink p.entry.toList ≤ n → (p.after (List.replicate n (.click .erase))).entry = "") := by
  constructor
  · intro k
    have hstripped := stripped_dropSpaces p.entry.toList
    rw [← p.entry_click_key_erase k] at hstripped
    refine ⟨hstripped, fun hlast => String.toList_inj.mp ?_⟩
    obtain ⟨n, hn⟩ := hstripped.1
    exact eq_of_append_spaces hn hlast
  · intro n hn
    obtain ⟨n, rfl⟩ : ∃ j, n = j + 1 := ⟨n - 1, by omega⟩
    have hcut := p.cutAt_after_erase n
    refine ⟨fun xs => ⟨fun h => h ▸ hcut, hcut.unique⟩, fun hle => String.toList_inj.mp ?_⟩
    rw [Nat.sub_eq_zero_of_le hle] at hcut
    exact hcut.eq_nil

/-- A text that no key has typed, with a space inside. -/
theorem erase_undoes_keys_foreign :
    "é 12".toList.getLast? ≠ some ' ' ∧
    (({ initial with entry := "é 12" } : Panel).after [.click (.key (.op .div)), .click .erase]).entry = "é 12" ∧
    1 ≤ 2 ∧ (({ initial with entry := "é 12" } : Panel).after (List.replicate 2 (.click .erase))).entry.toList = ['é'] ∧
    1 ≤ 3 ∧ ink "é 12".toList ≤ 3 ∧
    (({ initial with entry := "é 12" } : Panel).after (List.replicate 3 (.click .erase))).entry = "" := by
  obtain ⟨hkeys, hclicks⟩ := erase_undoes_keys { initial with entry := "é 12" }
  have hlast : "é 12".toList.getLast? ≠ some ' ' := by decide
  have hcut : CutAt (ink "é 12".toList - 2) "é 12".toList ['é'] := ⟨by decide, by decide, by decide⟩
  exact ⟨hlast, (hkeys (.op .div)).2 hlast, by decide, ((hclicks 2 (by decide)).1 ['é']).mpr hcut, by decide, by decide,
    (hclicks 3 (by decide)).2 (by decide)⟩

end Clicks

end DeskCalc.Panel
