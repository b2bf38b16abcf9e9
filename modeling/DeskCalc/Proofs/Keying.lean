import DeskCalc.Proofs.Blanks
import DeskCalc.Proofs.Display

/-!
# DeskCalc.Proofs.Keying — an entry that was typed on the pad

* What a key leaves in the entry is a `Cell`: its symbol, and spaces around it unless the symbol is a numeral.
* The keys and the erasing button keep the entry a row of cells, one for each key that has not been erased
  (`written_act`, `written_after`).  Which spaces a cell has depends on the way it was typed, so the row is not a
  function of the keys.
* Without its spaces a row of cells is the symbols of its keys (`Written.filter_eq`), and its spaces separate nothing
  that belongs together (`Written.apart`), so it is cut as those symbols are (`Written.scan_eq`).
* `keyed_entry`: therefore the entry means what the symbols on the keys spell.
-/

namespace DeskCalc.Panel

open Text Token

variable {k : Key} {ks : List Key} {xs ys cs : List Char} {c : Char} {p : Panel} {a : Act} {as : List Act}

/-! ## Symbols -/

section Symbols

/-- The symbol on a key is a known character, and no space. -/
theorem Key.symbol_spec (k : Key) : isKnown k.symbol = true ∧ isVisible k.symbol = true ∧ k.symbol ≠ ' ' := by
  cases k with
  | digit d =>
    revert d
    decide
  | point => decide
  | op o => cases o <;> decide
  | lparen => decide
  | rparen => decide

theorem Key.isKnown_symbol (k : Key) : isKnown k.symbol = true := k.symbol_spec.1

theorem Key.isVisible_symbol (k : Key) : isVisible k.symbol = true := k.symbol_spec.2.1

theorem Key.symbol_ne_space (k : Key) : k.symbol ≠ ' ' := k.symbol_spec.2.2

/-- The symbols on the keys, put together. -/
def spelling (ks : List Key) : String := String.join (ks.map fun k => (Button.key k).label)

theorem toList_spelling (ks : List Key) : (spelling ks).toList = ks.map Key.symbol := by
  have hlabel : ∀ k : Key, (Button.key k).label.toList = [k.symbol] := fun k => by simp [Button.label]
  rw [spelling, String.toList_join, List.flatMap_map, List.map_eq_flatMap]
  exact List.flatMap_congr fun k _ => hlabel k

end Symbols

/-! ## Spaces at the end -/

section Spaces

theorem dropSpaces_append_spaces (cs : List Char) (n : ℕ) :
    dropSpaces (cs ++ List.replicate n ' ') = dropSpaces cs := by
  induction n with
  | zero => rw [List.replicate_zero, List.append_nil]
  | succ n ih =>
    rw [List.replicate_succ', ← List.append_assoc, dropSpaces, dropEndWhile_concat_of_pos rfl]
    exact ih

theorem dropSpaces_concat (h : c ≠ ' ') (cs : List Char) : dropSpaces (cs ++ [c]) = cs ++ [c] :=
  dropEndWhile_concat_of_neg (p := (· == ' ')) (beq_false_of_ne h) cs

end Spaces

/-! ## Cells -/

/-- What a key leaves in the entry: its symbol with spaces before and after it, none of them at a numeral. -/
structure Cell where
  key : Key
  before : ℕ
  after : ℕ
  tight : isNumeral key.symbol = true → before = 0 ∧ after = 0

namespace Cell

/-- The text of a cell. -/
def text (cell : Cell) : List Char :=
  List.replicate cell.before ' ' ++ cell.key.symbol :: List.replicate cell.after ' '

/-- A symbol alone. -/
def bare (k : Key) : Cell where
  key := k
  before := 0
  after := 0
  tight _ := ⟨rfl, rfl⟩

/-- A symbol that is no numeral, with spaces around it. -/
def loose (k : Key) (hk : isNumeral k.symbol = false) (before after : ℕ) : Cell where
  key := k
  before := before
  after := after
  tight h := absurd (hk.symm.trans h) Bool.false_ne_true

/-- The cell without the spaces after it. -/
def flush (cell : Cell) : Cell where
  key := cell.key
  before := cell.before
  after := 0
  tight h := ⟨(cell.tight h).1, rfl⟩

/-- The text of a row of cells. -/
def row (cells : List Cell) : List Char := cells.flatMap text

@[simp] theorem row_nil : row [] = [] := rfl

@[simp] theorem row_cons (cell : Cell) (cells : List Cell) : row (cell :: cells) = cell.text ++ row cells := rfl

@[simp] theorem row_append (cells cells' : List Cell) : row (cells ++ cells') = row cells ++ row cells' :=
  List.flatMap_append

theorem row_concat (cells : List Cell) (cell : Cell) :
    row (cells ++ [cell]) =
      row cells ++ List.replicate cell.before ' ' ++ [cell.key.symbol] ++ List.replicate cell.after ' ' := by
  simp [text]

/-- Every character of a row stands in some cell of it. -/
theorem exists_cell_of_row (cells : List Cell) (h : row cells = xs ++ c :: ys) :
    ∃ front cell back us vs, cells = front ++ cell :: back ∧ cell.text = us ++ c :: vs ∧ xs = row front ++ us ∧
      ys = vs ++ row back := by
  induction cells generalizing xs with
  | nil => simp at h
  | cons cell cells ih =>
    rw [row_cons] at h
    rcases List.append_eq_append_iff.mp h with ⟨rest, rfl, hrest⟩ | ⟨rest, hcell, hrest⟩
    · obtain ⟨front, d, back, us, vs, rfl, hd, rfl, rfl⟩ := ih hrest
      exact ⟨cell :: front, d, back, us, vs, rfl, hd, by simp, rfl⟩
    · rcases List.cons_eq_append_iff.mp hrest with ⟨rfl, hrow⟩ | ⟨rest, rfl, rfl⟩
      · have hrow : row cells = [] ++ c :: ys := hrow
        obtain ⟨front, d, back, us, vs, rfl, hd, hus, rfl⟩ := ih hrow
        refine ⟨cell :: front, d, back, us, vs, rfl, hd, ?_, rfl⟩
        rw [row_cons, List.append_assoc, ← hus, hcell, List.append_nil, List.append_nil]
      · exact ⟨[], cell, cells, xs, rest, rfl, hcell, by simp, rfl⟩

/-- Beside every space of a cell stands its symbol, on one side or on the other. -/
theorem visible_beside_space {cell : Cell} {us vs : List Char} (h : cell.text = us ++ ' ' :: vs) :
    lastVisible? us = some cell.key.symbol ∨ firstVisible? vs = some cell.key.symbol := by
  have hfirst : ∀ (n : ℕ) (rest : List Char),
      firstVisible? (List.replicate n ' ' ++ cell.key.symbol :: rest) = some cell.key.symbol := by
    intro n rest
    rw [firstVisible?_blanks_append (fun d hd => List.eq_of_mem_replicate hd ▸ rfl), firstVisible?, List.find?_cons,
      cell.key.isVisible_symbol]
  rw [text] at h
  rcases List.append_eq_append_iff.mp h with ⟨rest, rfl, hrest⟩ | ⟨rest, hbefore, hrest⟩
  · rcases List.cons_eq_append_iff.mp hrest with ⟨-, hspace⟩ | ⟨rest, rfl, hafter⟩
    · exact absurd (List.cons_eq_cons.mp hspace).1.symm cell.key.symbol_ne_space
    · obtain ⟨-, hspaces, -⟩ := List.replicate_eq_append_iff.mp hafter
      refine Or.inl ?_
      rw [hspaces, lastVisible?, List.reverse_append, List.reverse_cons, List.append_assoc, List.reverse_replicate]
      exact hfirst _ _
  · rcases List.cons_eq_append_iff.mp hrest with ⟨-, hspace⟩ | ⟨rest, rfl, rfl⟩
    · exact absurd (List.cons_eq_cons.mp hspace).1 cell.key.symbol_ne_space
    · obtain ⟨-, -, hspaces⟩ := List.replicate_eq_append_iff.mp hbefore
      have hrest : rest = List.replicate rest.length ' ' := (List.cons_eq_cons.mp hspaces).2
      refine Or.inr ?_
      rw [hrest]
      exact hfirst _ _

end Cell

open Cell

/-! ## Rows of cells -/

/-- The text is a row of cells that these keys have left. -/
def Written (ks : List Key) (cs : List Char) : Prop := ∃ cells : List Cell, cells.map Cell.key = ks ∧ row cells = cs

section Typing

theorem written_nil : Written [] [] := ⟨[], rfl, rfl⟩

theorem Written.concat (h : Written ks cs) (cell : Cell) : Written (ks ++ [cell.key]) (cs ++ cell.text) := by
  obtain ⟨cells, rfl, rfl⟩ := h
  exact ⟨cells ++ [cell], by simp, by simp⟩

/-- The spaces at the end belong to the last cell. -/
theorem Written.dropSpaces (h : Written ks cs) : Written ks (dropSpaces cs) := by
  obtain ⟨cells, rfl, rfl⟩ := h
  rcases List.eq_nil_or_concat' cells with rfl | ⟨cells, cell, rfl⟩
  · exact written_nil
  · refine ⟨cells ++ [cell.flush], by simp [flush], ?_⟩
    rw [row_concat, row_concat, dropSpaces_append_spaces, dropSpaces_concat cell.key.symbol_ne_space]
    simp [flush]

/-- A key adds a cell. -/
theorem Written.insert (h : Written ks cs) (k : Key) : Written (ks ++ [k]) (k.insert cs) := by
  cases k with
  | digit d => exact h.concat (bare (.digit d))
  | point => exact h.concat (bare .point)
  | op o =>
    have hloose : isNumeral (Key.op o).symbol = false := by cases o <;> rfl
    rw [Key.insert]
    split_ifs with hnil
    · have hrow := h.dropSpaces.concat (loose (.op o) hloose 0 1)
      rw [hnil] at hrow
      exact hrow
    · rw [List.append_assoc]
      exact h.dropSpaces.concat (loose (.op o) hloose 1 1)
  | lparen =>
    rw [Key.insert]
    split_ifs
    · rw [List.append_assoc]
      exact h.concat (loose .lparen rfl 1 0)
    · exact h.concat (bare .lparen)
  | rparen => exact h.dropSpaces.concat (bare .rparen)

/-- Erasing takes the last cell, and the spaces before it. -/
theorem Written.eraseLast (h : Written ks cs) : Written ks.dropLast (eraseLast cs) := by
  obtain ⟨cells, rfl, rfl⟩ := h
  rcases List.eq_nil_or_concat' cells with rfl | ⟨cells, cell, rfl⟩
  · exact written_nil
  · have hfront : Written (cells.map Cell.key) (row cells) := ⟨cells, rfl, rfl⟩
    rw [Panel.eraseLast, row_concat, dropSpaces_append_spaces, dropSpaces_concat cell.key.symbol_ne_space,
      List.dropLast_concat, dropSpaces_append_spaces, List.map_append, List.map_singleton, List.dropLast_concat]
    exact hfront.dropSpaces

end Typing

/-! ## What a row of cells means -/

section Meaning

theorem Written.filter_eq (h : Written ks cs) : cs.filter (· != ' ') = ks.map Key.symbol := by
  obtain ⟨cells, rfl, rfl⟩ := h
  induction cells with
  | nil => rfl
  | cons cell cells ih =>
    rw [row_cons, List.filter_append, ih]
    simp [Cell.text, cell.key.symbol_ne_space]

/-- No space stands between two numerals: the symbol of its cell stands beside it, and is none. -/
theorem Written.apart (h : Written ks cs) (hcs : cs = xs ++ ' ' :: ys) {d : Char} (hc : lastVisible? xs = some c)
    (hd : firstVisible? ys = some d) : ¬(isNumeral c = true ∧ isNumeral d = true) := by
  rintro ⟨hcn, hdn⟩
  obtain ⟨cells, rfl, hrow⟩ := h
  obtain ⟨front, cell, back, us, vs, -, hcell, rfl, rfl⟩ := exists_cell_of_row cells (hrow.trans hcs)
  have hloose : ¬isNumeral cell.key.symbol = true := by
    intro hn
    obtain ⟨hb, ha⟩ := cell.tight hn
    have hmem : ' ' ∈ cell.text := by simp [hcell]
    simp [Cell.text, hb, ha, cell.key.symbol_ne_space.symm] at hmem
  rcases visible_beside_space hcell with hlast | hfirst
  · have hsymbol : lastVisible? (row front ++ us) = some cell.key.symbol := by
      rw [lastVisible?] at hlast
      rw [lastVisible?, List.reverse_append, firstVisible?, List.find?_append, ← firstVisible?, hlast]
      rfl
    exact hloose (Option.some.inj (hsymbol.symm.trans hc) ▸ hcn)
  · have hsymbol : firstVisible? (vs ++ row back) = some cell.key.symbol := by
      rw [firstVisible?, List.find?_append, ← firstVisible?, hfirst]
      rfl
    exact hloose (Option.some.inj (hsymbol.symm.trans hd) ▸ hdn)

theorem Written.isKnown (h : Written ks cs) : ∀ c ∈ cs, isKnown c = true := by
  obtain ⟨cells, rfl, rfl⟩ := h
  intro c hc
  by_cases hspace : c = ' '
  · rw [hspace]
    decide
  · have hfilter : c ∈ (row cells).filter (· != ' ') := List.mem_filter.mpr ⟨hc, by simpa using hspace⟩
    rw [Written.filter_eq ⟨cells, rfl, rfl⟩] at hfilter
    obtain ⟨k, -, rfl⟩ := List.mem_map.mp hfilter
    exact k.isKnown_symbol

/-- A cell in front of a text is cut as its symbol is. -/
theorem Cell.scan_text_append (cell : Cell) (cs : List Char) :
    scan (cell.text ++ cs) = scan (cell.key.symbol :: cs) := by
  have hspaces : ∀ n : ℕ, ∀ d ∈ List.replicate n ' ', isBlank d = true := by
    intro n d hd
    rw [List.eq_of_mem_replicate hd]
    decide
  by_cases hn : isNumeral cell.key.symbol = true
  · obtain ⟨hb, ha⟩ := cell.tight hn
    simp [Cell.text, hb, ha]
  · have hn : isNumeral cell.key.symbol = false := Bool.eq_false_iff.mpr hn
    obtain ⟨t, ht⟩ := exists_ofChar?_of_isKnown cell.key.isKnown_symbol cell.key.isVisible_symbol hn
    have hsymbol : ∀ rest, scan (cell.key.symbol :: rest) = ⟨[], t :: (scan rest).close⟩ := scan_char hn ht
    rw [Cell.text, List.append_assoc, List.cons_append,
      scan_blanks_append (hspaces _) (by rw [hsymbol]), hsymbol, hsymbol, close_scan_blanks (hspaces _)]

theorem Written.scan_eq (h : Written ks cs) : scan cs = scan (ks.map Key.symbol) := by
  obtain ⟨cells, rfl, rfl⟩ := h
  induction cells with
  | nil => rfl
  | cons cell cells ih =>
    rw [row_cons, scan_text_append, scan_cons, ih]
    rfl

end Meaning

/-! ## Runs of keys -/

section Runs

/-- A click on a key or on the erasing button, or a frame without any. -/
def Act.isKeying : Act → Bool
  | .click (.key _) | .click .erase | .idle => true
  | _ => false

/-- The keys that are left after an act: a key comes last, and erasing takes the last one. -/
def keysAfter (ks : List Key) : Act → List Key
  | .click (.key k) => ks ++ [k]
  | .click .erase => ks.dropLast
  | _ => ks

/-- The keys of a run that have not been erased. -/
def survivors (as : List Act) : List Key := as.foldl keysAfter []

theorem entry_click_key (p : Panel) (k : Key) :
    (p.act (.click (.key k))).entry.toList = k.insert p.entry.toList :=
  p.drawEntry.toList_entry_editEntry k.insert

theorem entry_click_erase (p : Panel) : (p.act (.click .erase)).entry.toList = Panel.eraseLast p.entry.toList :=
  p.drawEntry.toList_entry_editEntry Panel.eraseLast

theorem written_act (h : Written ks p.entry.toList) (ha : a.isKeying = true) :
    Written (keysAfter ks a) (p.act a).entry.toList := by
  cases a with
  | idle => exact h
  | click b =>
    cases b with
    | key k =>
      rw [entry_click_key]
      exact h.insert k
    | erase =>
      rw [entry_click_erase]
      exact h.eraseLast
    | clearEntry | clearResults | reset | equals => cases ha
  | setEntry _ | reset | clearEntry | clearResults | erase | recallLine _ | showResult _ _ | showError _ _ | enter
  | escape | clickLine _ => cases ha

theorem written_after (h : Written ks p.entry.toList) (has : ∀ a ∈ as, a.isKeying = true) :
    Written (as.foldl keysAfter ks) (p.after as).entry.toList := by
  induction as generalizing p ks with
  | nil => exact h
  | cons a as ih =>
    obtain ⟨ha, has⟩ := List.forall_mem_cons.mp has
    exact ih (written_act h ha) has

variable {s w : String}

theorem Written.tokenize_eq (h : Written ks s.toList) : tokenize s = tokenize (spelling ks) := by
  have hspelling : tokenize (spelling ks) = .ok (scan (ks.map Key.symbol)).close := by
    rw [tokenize_eq_ok_iff, toList_spelling]
    refine ⟨fun c hc => ?_, rfl⟩
    obtain ⟨k, -, rfl⟩ := List.mem_map.mp hc
    exact k.isKnown_symbol
  rw [hspelling, tokenize_eq_ok_iff]
  exact ⟨h.isKnown, congrArg Scan.close h.scan_eq⟩

/-- If the symbols pass the check, the text that was typed has their working. -/
theorem Written.ofEntry_trimmed_eq (h : Written ks s.toList) (hc : Surface.check (spelling ks) = .ok ()) :
    Working.ofEntry (trimmed s) = Working.ofEntry (spelling ks) := by
  have hkeep : ∀ c, isVisible c = true → (c != ' ') = true := by
    intro c hv
    rw [bne_iff_ne]
    rintro rfl
    exact absurd hv (by decide)
  have hfilter : (spelling ks).toList = s.toList.filter (· != ' ') := by
    rw [toList_spelling, h.filter_eq]
  have hs : Surface.check s = .ok () := Surface.check_of_filter hkeep hfilter hc
  have ht : tokenize s = .ok (scan s.toList).close := tokenize_eq_ok_iff.mpr ⟨h.isKnown, rfl⟩
  rw [ofEntry_trimmed ht]
  refine Working.ofEntry_congr ?_
  rw [tokensOf_of_check hs, tokensOf_of_check hc, h.tokenize_eq]

/-- **An entry typed on the pad means what its symbols spell.**  Without its spaces it is the symbols of the keys that
were not erased, no space stands between two numerals, and it has the tokens of the symbols; if they pass the check, a
click on `=` shows their working. -/
theorem keyed_entry (hp : p.entry = "") (has : ∀ a ∈ as, a.isKeying = true) :
    (p.after as).entry.toList.filter (· != ' ') = (spelling (survivors as)).toList ∧
    (∀ xs ys c d, (p.after as).entry.toList = xs ++ ' ' :: ys → lastVisible? xs = some c → firstVisible? ys = some d →
      ¬(isNumeral c = true ∧ isNumeral d = true)) ∧
    tokenize (p.after as).entry = tokenize (spelling (survivors as)) ∧
    (Surface.check (spelling (survivors as)) = .ok () →
      ((p.after as).act (.click .equals)).Shows (Working.ofEntry (spelling (survivors as)))) := by
  have hstart : Written [] p.entry.toList := by
    rw [hp]
    exact written_nil
  have h : Written (survivors as) (p.after as).entry.toList := written_after hstart has
  refine ⟨?_, fun xs ys c d hcs hc hd => h.apart hcs hc hd, h.tokenize_eq, fun hcheck => ?_⟩
  · rw [h.filter_eq, toList_spelling]
  · rw [← h.ofEntry_trimmed_eq hcheck]
    exact (p.after as).shows_equals

/-- Six, an operator, the eraser, another operator, and two. -/
def correctedKeys : List Act :=
  [.click (.key (.digit ⟨6, by decide⟩)), .click (.key (.op .add)), .click .erase, .idle, .click (.key (.op .div)),
    .click (.key (.digit ⟨2, by decide⟩))]

theorem keyed_entry_corrected :
    initial.entry = "" ∧ (∀ a ∈ correctedKeys, a.isKeying = true) ∧
    (initial.after correctedKeys).entry.toList = ['6'] ++ ' ' :: ['/', ' ', '2'] ∧
    ¬(isNumeral '6' = true ∧ isNumeral '/' = true) ∧
    tokenize (initial.after correctedKeys).entry = tokenize "6/2" ∧ Surface.check "6/2" = .ok () ∧
    ((initial.after correctedKeys).act (.click .equals)).Shows (Working.ofEntry "6/2") := by
  have has : ∀ a ∈ correctedKeys, a.isKeying = true := by simp [correctedKeys, Act.isKeying]
  have hentry : (initial.after correctedKeys).entry.toList = ['6'] ++ ' ' :: ['/', ' ', '2'] := by decide
  have hspelling : spelling (survivors correctedKeys) = "6/2" := by decide
  have hcheck : Surface.check "6/2" = .ok () := by decide
  obtain ⟨-, hapart, htokens, hshows⟩ := keyed_entry (p := initial) rfl has
  rw [hspelling] at htokens hshows
  exact ⟨rfl, has, hentry, hapart _ _ '6' '/' hentry rfl rfl, htokens, hcheck, hshows hcheck⟩

end Runs

end DeskCalc.Panel
