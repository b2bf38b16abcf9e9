import DeskCalc.Proofs.Seam

/-!
# DeskCalc.Proofs.Cursor — a text read from left to right, by one index

* `Cursor` is the pass that looks at one character after another.  A blank, an operator and a parenthesis move its index
  by one; a numeral starts an inner loop that moves the index behind the whole run (`runEnd`); an unknown character ends
  the pass with a fault that names the index.
* `ahead`: what the pass comes to from a cursor on, said by the cut of the text that is left.  A step does not change it
  (`ahead_of_step`), whichever way the index moved: the piece that was read is cut off as if it stood alone.
* `run_start`: so the pass gives the tokens, or the fault, of `tokenize`.
-/

namespace DeskCalc.Token

open Text

/-! ## The pass by index -/

/-- The state of the pass: the index of the next character, and the tokens so far, the last one first. -/
structure Cursor where
  index : ℕ
  tokens : List Token
deriving DecidableEq

namespace Cursor

variable {c : Char} {cs w : List Char} {cur cur' : Cursor} {t : Token} {us : List Token} {f : Fault} {i : ℕ}

/-- Before the first character. -/
def start : Cursor := ⟨0, []⟩

/-- The inner loop: the first index from `i` on at which no numeral stands. -/
def runEnd (cs : List Char) (i : ℕ) : ℕ :=
  if h : i < cs.length then
    if isNumeral cs[i] then runEnd cs (i + 1) else i
  else i
termination_by cs.length - i

/-- The body of the outer loop, with the character at the index. -/
def step (cs : List Char) (cur : Cursor) (c : Char) : Except Fault Cursor :=
  if isBlank c then .ok { cur with index := cur.index + 1 }
  else match ofChar? c with
    | some t => .ok ⟨cur.index + 1, t :: cur.tokens⟩
    | none =>
      if isNumeral c then
        .ok ⟨runEnd cs cur.index, num (String.ofList (cs.extract cur.index (runEnd cs cur.index))) :: cur.tokens⟩
      else .error (.unexpectedChar c cur.index)

/-- The inner loop goes on for as long as there are numerals. -/
theorem runEnd_eq (cs : List Char) (i : ℕ) : runEnd cs i = i + ((cs.drop i).takeWhile isNumeral).length := by
  fun_induction runEnd cs i with
  | case1 i h hn ih =>
    rw [ih, List.drop_eq_getElem_cons h, List.takeWhile_cons_of_pos hn, List.length_cons]
    omega
  | case2 i h hn => rw [List.drop_eq_getElem_cons h, List.takeWhile_cons_of_neg hn, List.length_nil, Nat.add_zero]
  | case3 i h => rw [List.drop_eq_nil_iff.mpr (Nat.le_of_not_lt h), List.takeWhile_nil, List.length_nil, Nat.add_zero]

theorem extract_runEnd (cs : List Char) (i : ℕ) : cs.extract i (runEnd cs i) = (cs.drop i).takeWhile isNumeral := by
  rw [List.extract_eq_take_drop, runEnd_eq, Nat.add_sub_cancel_left]
  exact (List.prefix_iff_eq_take.mp (List.takeWhile_prefix _)).symm

/-- What a step does with each kind of character. -/
theorem step_cases (cs : List Char) (cur : Cursor) (c : Char) :
    (isBlank c = true ∧ step cs cur c = .ok ⟨cur.index + 1, cur.tokens⟩) ∨
    (∃ t, ofChar? c = some t ∧ step cs cur c = .ok ⟨cur.index + 1, t :: cur.tokens⟩) ∨
    (isNumeral c = true ∧ step cs cur c = .ok ⟨cur.index + ((cs.drop cur.index).takeWhile isNumeral).length,
      num (String.ofList ((cs.drop cur.index).takeWhile isNumeral)) :: cur.tokens⟩) ∨
    (isKnown c = false ∧ step cs cur c = .error (.unexpectedChar c cur.index)) := by
  by_cases hb : isBlank c = true
  · exact Or.inl ⟨hb, by rw [step, if_pos hb]⟩
  · cases ht : ofChar? c with
    | some t => exact Or.inr (Or.inl ⟨t, rfl, by rw [step, if_neg hb, ht]⟩)
    | none =>
      by_cases hn : isNumeral c = true
      · refine Or.inr (Or.inr (Or.inl ⟨hn, ?_⟩))
        rw [step, if_neg hb, ht, ← runEnd_eq, ← extract_runEnd]
        exact if_pos hn
      · refine Or.inr (Or.inr (Or.inr ⟨by simp [isKnown, hb, hn, ht], ?_⟩))
        rw [step, if_neg hb, ht]
        exact if_neg hn

/-- Every step moves the index. -/
theorem index_lt_of_step (h : cur.index < cs.length) (hstep : step cs cur cs[cur.index] = .ok cur') :
    cur.index < cur'.index := by
  rcases step_cases cs cur cs[cur.index] with ⟨-, hs⟩ | ⟨t, -, hs⟩ | ⟨hn, hs⟩ | ⟨-, hs⟩
  · obtain rfl := Except.ok.inj (hs.symm.trans hstep)
    exact Nat.lt_succ_self _
  · obtain rfl := Except.ok.inj (hs.symm.trans hstep)
    exact Nat.lt_succ_self _
  · obtain rfl := Except.ok.inj (hs.symm.trans hstep)
    -- the numeral at the index is the first one of the run
    rw [List.drop_eq_getElem_cons h, List.takeWhile_cons_of_pos hn]
    exact Nat.lt_add_of_pos_right (Nat.succ_pos _)
  · cases hs.symm.trans hstep

/-- The outer loop: the pass from a cursor to the end of the text. -/
def run (cs : List Char) (cur : Cursor) : Except Fault (List Token) :=
  if h : cur.index < cs.length then
    match hstep : step cs cur cs[cur.index] with
    | .ok cur' => run cs cur'
    | .error f => .error f
  else .ok cur.tokens.reverse
termination_by cs.length - cur.index
decreasing_by
  have hlt := index_lt_of_step h hstep
  omega

/-! ## Pieces that are cut off alone -/

section Pieces

theorem isNumeral_of_ofChar? (h : ofChar? c = some t) : isNumeral c = false := by
  have hmem := isSome_ofChar?_iff.mp (Option.isSome_of_eq_some h)
  have hall : ['+', '-', '*', '/', '(', ')'].all (fun c => !isNumeral c) = true := by decide
  simpa using List.all_eq_true.mp hall c hmem

theorem tokenize_symbol (h : ofChar? c = some t) : tokenize (String.ofList [c]) = .ok [t] := by
  have htext : t.text = String.ofList [c] := by rw [← text_of_ofChar? h, String.ofList_toList]
  exact htext ▸ tokenize_text (isLexeme_of_ofChar? h)

theorem tokenize_numerals (hne : w ≠ []) (h : ∀ c ∈ w, isNumeral c = true) :
    tokenize (String.ofList w) = .ok [num (String.ofList w)] :=
  tokenize_text (isLexeme_num_ofList hne h)

end Pieces

/-! ## What is ahead -/

section Ahead

/-- The tokens so far, and then those of the text that is left; its fault is moved behind what was read. -/
def ahead (cs : List Char) (cur : Cursor) : Except Fault (List Token) :=
  ((tokenize (String.ofList (cs.drop cur.index))).map (cur.tokens.reverse ++ ·)).mapError (Fault.moved cur.index)

/-- A piece of the text that is cut off alone may be taken in one go. -/
theorem ahead_of_piece (hi : cur.index + w.length = i) (hsplit : cs.drop cur.index = w ++ cs.drop i)
    (hcut : tokenize (String.ofList w) = .ok us)
    (hseam : ¬NumeralSeam (String.ofList w) (String.ofList (cs.drop i))) :
    ahead cs cur = ahead cs ⟨i, us.reverse ++ cur.tokens⟩ := by
  rw [ahead, ahead, hsplit, String.ofList_append, tokenize_append_eq hseam hcut, String.length_ofList]
  cases tokenize (String.ofList (cs.drop i)) with
  | ok vs => simp [Except.map, Except.mapError]
  | error f => simp [Except.map, Except.mapError, Fault.moved_moved, hi]

/-- A character that is no numeral is cut off alone. -/
theorem ahead_of_char (h : cur.index < cs.length) (hn : isNumeral cs[cur.index] = false)
    (hcut : tokenize (String.ofList [cs[cur.index]]) = .ok us) :
    ahead cs cur = ahead cs ⟨cur.index + 1, us.reverse ++ cur.tokens⟩ := by
  have hsplit : cs.drop cur.index = [cs[cur.index]] ++ cs.drop (cur.index + 1) := by
    rw [List.singleton_append, List.drop_eq_getElem_cons h]
  exact ahead_of_piece rfl hsplit hcut (not_numeralSeam_iff.mpr (Or.inl (by simpa using hn)))

/-- So is a run of numerals. -/
theorem ahead_of_run (h : cur.index < cs.length) (hn : isNumeral cs[cur.index] = true) :
    ahead cs cur = ahead cs ⟨cur.index + ((cs.drop cur.index).takeWhile isNumeral).length,
      num (String.ofList ((cs.drop cur.index).takeWhile isNumeral)) :: cur.tokens⟩ := by
  have hhead : (cs.drop cur.index).head?.any isNumeral = true := by
    rw [List.drop_eq_getElem_cons h]
    exact hn
  have hrun := isRun_takeWhile hhead
  have hrest : cs.drop (cur.index + ((cs.drop cur.index).takeWhile isNumeral).length) =
      (cs.drop cur.index).dropWhile isNumeral := by
    rw [← List.drop_drop]
    exact (congrArg _ hrun.split).trans List.drop_left
  have hsplit : cs.drop cur.index = (cs.drop cur.index).takeWhile isNumeral ++
      cs.drop (cur.index + ((cs.drop cur.index).takeWhile isNumeral).length) := by
    rw [hrest, List.takeWhile_append_dropWhile]
  have hcut := tokenize_numerals hrun.ne_nil hrun.numerals
  have hpiece := ahead_of_piece rfl hsplit hcut <| by
    rw [hrest, not_numeralSeam_iff, String.toList_ofList, String.toList_ofList]
    exact Or.inr hrun.after
  rwa [List.reverse_singleton, List.singleton_append] at hpiece

/-- A character that has no place in an expression is all that is ahead of itself. -/
theorem ahead_of_unknown (h : cur.index < cs.length) (hk : isKnown cs[cur.index] = false) :
    ahead cs cur = .error (.unexpectedChar cs[cur.index] cur.index) := by
  have hfault : tokenize (String.ofList (cs.drop cur.index)) = .error (.unexpectedChar cs[cur.index] 0) := by
    rw [tokenize_eq_error_iff]
    exact ⟨[], cs[cur.index], cs.drop (cur.index + 1), by simp, by simp, hk, rfl⟩
  rw [ahead, hfault]
  exact congrArg (fun i => Except.error (Fault.unexpectedChar cs[cur.index] i)) (Nat.zero_add _)

/-- **A step changes nothing of what is ahead**, whichever way it moves the index. -/
theorem ahead_of_step (h : cur.index < cs.length) (hstep : step cs cur cs[cur.index] = .ok cur') :
    ahead cs cur = ahead cs cur' := by
  rcases step_cases cs cur cs[cur.index] with ⟨hb, hs⟩ | ⟨t, ht, hs⟩ | ⟨hn, hs⟩ | ⟨-, hs⟩
  · obtain rfl := Except.ok.inj (hs.symm.trans hstep)
    have hcut : tokenize (String.ofList [cs[cur.index]]) = .ok [] := tokenize_blanks (by simpa using hb)
    have hpiece := ahead_of_char h (isNumeral_of_isBlank hb) hcut
    rwa [List.reverse_nil, List.nil_append] at hpiece
  · obtain rfl := Except.ok.inj (hs.symm.trans hstep)
    have hpiece := ahead_of_char h (isNumeral_of_ofChar? ht) (tokenize_symbol ht)
    rwa [List.reverse_singleton, List.singleton_append] at hpiece
  · obtain rfl := Except.ok.inj (hs.symm.trans hstep)
    exact ahead_of_run h hn
  · cases hs.symm.trans hstep

/-- A step that fails has the fault of what is ahead. -/
theorem ahead_of_step_error (h : cur.index < cs.length) (hstep : step cs cur cs[cur.index] = .error f) :
    ahead cs cur = .error f := by
  rcases step_cases cs cur cs[cur.index] with ⟨-, hs⟩ | ⟨t, -, hs⟩ | ⟨-, hs⟩ | ⟨hk, hs⟩
  · cases hs.symm.trans hstep
  · cases hs.symm.trans hstep
  · cases hs.symm.trans hstep
  · obtain rfl := Except.error.inj (hs.symm.trans hstep)
    exact ahead_of_unknown h hk

/-- So a whole pass comes to what was ahead of it. -/
theorem run_eq_ahead (cs : List Char) (cur : Cursor) : run cs cur = ahead cs cur := by
  fun_induction run cs cur with
  | case1 cur h cur' hstep ih => rw [ih, ahead_of_step h hstep]
  | case2 cur h f hstep => rw [ahead_of_step_error h hstep]
  | case3 cur h =>
    have hnil : tokenize (String.ofList []) = .ok [] := rfl
    rw [ahead, List.drop_eq_nil_iff.mpr (Nat.le_of_not_lt h), hnil]
    exact congrArg Except.ok (List.append_nil _).symm

/-- **The same tokens from left to right**: the pass by index gives the tokens of the text, or its fault. -/
theorem run_start (s : String) : run s.toList start = tokenize s := by
  have hall : String.ofList (s.toList.drop start.index) = s := String.ofList_toList
  rw [run_eq_ahead, ahead, hall]
  cases tokenize s with
  | ok ts => rfl
  | error f => exact congrArg Except.error f.moved_zero

end Ahead

end Cursor

end DeskCalc.Token
