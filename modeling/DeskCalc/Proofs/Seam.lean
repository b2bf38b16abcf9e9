import DeskCalc.Proofs.Munch

/-!
# DeskCalc.Proofs.Seam — two texts in a row are cut as each of them alone

* The first unknown character of a text is reported whatever is put behind the text (`tokenize_append_of_error`), and
  with a text that can be cut in front of it, its position counts from the start of that text
  (`tokenize_append_of_ok_of_error`).
* Of two texts that can be cut, the tokens stand in a row (`tokenize_append_of_apart`).  Both facts in one equation:
  `tokenize_append_eq`.
* Only where numerals stand on both sides of the seam (`NumeralSeam`) a literal goes on over it: the whole run at the
  end of the first text and the whole run at the start of the second are one run (`IsRun.append`), and their literals
  one literal (`tokenize_append_of_numeralSeam`).
-/

namespace DeskCalc

/-! ## Positions -/

namespace Fault

/-- The fault in a text before which so many characters are put. -/
def moved (n : ℕ) : Fault → Fault
  | unexpectedChar c i => unexpectedChar c (i + n)
  | f => f

theorem moved_zero (f : Fault) : f.moved 0 = f := by
  cases f <;> rfl

theorem moved_moved (m n : ℕ) (f : Fault) : (f.moved m).moved n = f.moved (n + m) := by
  cases f with
  | unexpectedChar c i => exact congrArg (unexpectedChar c) (by omega)
  | _ => rfl

end Fault

namespace Token

variable {c : Char} {cs xs ys front back : List Char} {s t : String} {us vs : List Token} {f : Fault} {i : ℕ}

/-! ## Seams -/

section Seams

/-- Numerals stand on both sides of the seam of two texts. -/
def NumeralSeam (s t : String) : Prop :=
  s.toList.getLast?.any isNumeral = true ∧ t.toList.head?.any isNumeral = true

instance : Decidable (NumeralSeam s t) := inferInstanceAs (Decidable (_ ∧ _))

theorem not_numeralSeam_iff :
    ¬NumeralSeam s t ↔
      (∀ c ∈ s.toList.getLast?, isNumeral c = false) ∨ ∀ c ∈ t.toList.head?, isNumeral c = false := by
  rw [NumeralSeam, not_and_or, Bool.not_eq_true, Bool.not_eq_true, Option.any_eq_false, Option.any_eq_false]
  rfl

/-- A text that ends with a numeral ends with a whole run. -/
theorem exists_isRun_of_getLast? (h : cs.getLast?.any isNumeral = true) : ∃ front run, IsRun cs front run [] := by
  obtain ⟨d, hd, hn⟩ := (Option.any_eq_true _ _).mp h
  refine ⟨cs.rdropWhile isNumeral, cs.rtakeWhile isNumeral, ?_, ?_, fun c hc => List.mem_rtakeWhile_imp hc, ?_, by simp⟩
  · rw [List.rdropWhile_append_rtakeWhile, List.append_nil]
  · obtain ⟨front, rfl⟩ := List.getLast?_eq_some_iff.mp hd
    rw [List.rtakeWhile_concat_pos _ _ _ hn]
    simp
  · intro c hc
    obtain ⟨hne, rfl⟩ := List.mem_getLast?_eq_getLast hc
    exact Bool.eq_false_iff.mpr (List.rdropWhile_last_not isNumeral cs hne)

/-- A text that starts with a numeral starts with a whole run. -/
theorem isRun_takeWhile (h : cs.head?.any isNumeral = true) :
    IsRun cs [] (cs.takeWhile isNumeral) (cs.dropWhile isNumeral) := by
  obtain ⟨d, hd, hn⟩ := (Option.any_eq_true _ _).mp h
  refine ⟨?_, ?_, fun c hc => List.mem_takeWhile_imp hc, by simp, ?_⟩
  · rw [List.nil_append, List.takeWhile_append_dropWhile]
  · obtain ⟨back, rfl⟩ := List.head?_eq_some_iff.mp hd
    rw [List.takeWhile_cons_of_pos hn]
    exact List.cons_ne_nil _ _
  · intro c hc
    have hfirst := List.head?_dropWhile_not isNumeral cs
    rw [Option.mem_def.mp hc] at hfirst
    simpa using hfirst

/-- A whole run at the end of a text goes on in the whole run at the start of the next one. -/
theorem IsRun.append {run run' : List Char} (h : IsRun xs front run []) (h' : IsRun ys [] run' back) :
    IsRun (xs ++ ys) front (run ++ run') back where
  split := by rw [h.split, h'.split]; simp
  ne_nil := List.append_ne_nil_of_left_ne_nil h.ne_nil _
  numerals := List.forall_mem_append.mpr ⟨h.numerals, h'.numerals⟩
  before := h.before
  after := h'.after

end Seams

/-! ## Two texts in a row -/

section Append

/-- Two texts that can be cut can be cut in a row. -/
theorem tokenize_append_of_ok (hs : tokenize s = .ok us) (ht : tokenize t = .ok vs) :
    tokenize (s ++ t) = .ok (scan (s.toList ++ t.toList)).close := by
  obtain ⟨hknown, -⟩ := tokenize_eq_ok_iff.mp hs
  obtain ⟨hknown', -⟩ := tokenize_eq_ok_iff.mp ht
  rw [tokenize_eq_ok_iff, String.toList_append]
  exact ⟨List.forall_mem_append.mpr ⟨hknown, hknown'⟩, rfl⟩

/-- Their tokens stand in a row if no literal goes on from the one into the other. -/
theorem tokenize_append_of_apart (h : ¬NumeralSeam s t) (hs : tokenize s = .ok us) (ht : tokenize t = .ok vs) :
    tokenize (s ++ t) = .ok (us ++ vs) := by
  obtain ⟨-, hus⟩ := tokenize_eq_ok_iff.mp hs
  obtain ⟨-, hvs⟩ := tokenize_eq_ok_iff.mp ht
  rw [tokenize_append_of_ok hs ht, close_scan_append (not_numeralSeam_iff.mp h), hus, hvs]

/-- If numerals meet, the last token of the one and the first token of the other are literals, and become one. -/
theorem tokenize_append_of_numeralSeam (h : NumeralSeam s t) (hs : tokenize s = .ok us) (ht : tokenize t = .ok vs) :
    ∃ us' x y vs', us = us' ++ [num x] ∧ vs = num y :: vs' ∧
      tokenize (s ++ t) = .ok (us' ++ num (x ++ y) :: vs') := by
  obtain ⟨front, run, hrun⟩ := exists_isRun_of_getLast? h.1
  have hrun' := isRun_takeWhile h.2
  obtain ⟨-, rfl⟩ := tokenize_eq_ok_iff.mp hs
  obtain ⟨-, rfl⟩ := tokenize_eq_ok_iff.mp ht
  refine ⟨(scan front).close, String.ofList run, String.ofList (t.toList.takeWhile isNumeral),
    (scan (t.toList.dropWhile isNumeral)).close, ?_, ?_, ?_⟩
  · exact hrun.close_scan
  · exact hrun'.close_scan
  · rw [tokenize_append_of_ok hs ht, (hrun.append hrun').close_scan, String.ofList_append]

/-- What is put behind a text does not change its fault. -/
theorem tokenize_append_of_error (h : tokenize s = .error f) (t : String) : tokenize (s ++ t) = .error f := by
  obtain ⟨front, c, back, hs, hfront, hc, rfl⟩ := tokenize_eq_error_iff.mp h
  refine tokenize_eq_error_iff.mpr ⟨front, c, back ++ t.toList, ?_, hfront, hc, rfl⟩
  rw [String.toList_append, hs, List.append_assoc, List.cons_append]

/-- What is put before a text moves the position in its fault. -/
theorem tokenize_append_of_ok_of_error (hs : tokenize s = .ok us) (ht : tokenize t = .error (.unexpectedChar c i)) :
    tokenize (s ++ t) = .error (.unexpectedChar c (i + s.length)) := by
  obtain ⟨hknown, -⟩ := tokenize_eq_ok_iff.mp hs
  obtain ⟨front, d, back, hsplit, hfront, hd, hf⟩ := tokenize_eq_error_iff.mp ht
  obtain ⟨rfl, rfl⟩ := Fault.unexpectedChar.inj hf
  refine tokenize_eq_error_iff.mpr ⟨s.toList ++ front, c, back, ?_, List.forall_mem_append.mpr ⟨hknown, hfront⟩, hd, ?_⟩
  · rw [String.toList_append, hsplit, List.append_assoc]
  · rw [List.length_append, String.length_toList, Nat.add_comm]

/-- The one fault of a text is an unknown character. -/
theorem exists_unexpectedChar_of_tokenize (h : tokenize s = .error f) : ∃ c i, f = .unexpectedChar c i := by
  obtain ⟨front, c, -, -, -, -, hf⟩ := tokenize_eq_error_iff.mp h
  exact ⟨c, front.length, hf⟩

/-- A text that can be cut puts its tokens before those of the next text, and moves its fault. -/
theorem tokenize_append_eq (h : ¬NumeralSeam s t) (hs : tokenize s = .ok us) :
    tokenize (s ++ t) = ((tokenize t).map (us ++ ·)).mapError (Fault.moved s.length) := by
  cases ht : tokenize t with
  | ok vs => exact tokenize_append_of_apart h hs ht
  | error f =>
    obtain ⟨c, i, rfl⟩ := exists_unexpectedChar_of_tokenize ht
    exact tokenize_append_of_ok_of_error hs ht

/-- **Two texts in a row** have the tokens of the first and then those of the second; where numerals meet, the literals
on both sides are one.  A fault of the first text is the fault of both, and behind a text without a fault the fault of
the second names its character at a position that is greater by the length of the first. -/
theorem tokenize_append (s t : String) :
    (∀ us vs, tokenize s = .ok us → tokenize t = .ok vs →
      (¬NumeralSeam s t → tokenize (s ++ t) = .ok (us ++ vs)) ∧
      (NumeralSeam s t → ∃ us' x y vs', us = us' ++ [num x] ∧ vs = num y :: vs' ∧
        tokenize (s ++ t) = .ok (us' ++ num (x ++ y) :: vs'))) ∧
    (∀ f, tokenize s = .error f → tokenize (s ++ t) = .error f) ∧
    ∀ us f, tokenize s = .ok us → tokenize t = .error f →
      ∃ c i, f = .unexpectedChar c i ∧ tokenize (s ++ t) = .error (.unexpectedChar c (i + s.length)) := by
  refine ⟨fun us vs hs ht => ⟨fun h => ?_, fun h => ?_⟩, fun f hs => ?_, fun us f hs ht => ?_⟩
  · exact tokenize_append_of_apart h hs ht
  · exact tokenize_append_of_numeralSeam h hs ht
  · exact tokenize_append_of_error hs t
  · obtain ⟨c, i, rfl⟩ := exists_unexpectedChar_of_tokenize ht
    exact ⟨c, i, rfl, tokenize_append_of_ok_of_error hs ht⟩

/-- A literal with two points out of two literals, a space in the way of that, and a foreign character. -/
theorem tokenize_append_points :
    tokenize "1+2." = .ok [num "1", op .add, num "2."] ∧ tokenize ".5 6" = .ok [num ".5", num "6"] ∧
    NumeralSeam "1+2." ".5 6" ∧ tokenize ("1+2." ++ ".5 6") = .ok [num "1", op .add, num "2..5", num "6"] ∧
    tokenize "1 " = .ok [num "1"] ∧ ¬NumeralSeam "1 " ".5 6" ∧
    tokenize ("1 " ++ ".5 6") = .ok [num "1", num ".5", num "6"] ∧
    tokenize "2$" = .error (.unexpectedChar '$' 1) ∧ tokenize ("2$" ++ ".5 6") = .error (.unexpectedChar '$' 1) ∧
    tokenize ("1+2." ++ "2$") = .error (.unexpectedChar '$' 5) := by
  have hsum : tokenize "1+2." = .ok [num "1", op .add, num "2."] := rfl
  have htwo : tokenize ".5 6" = .ok [num ".5", num "6"] := rfl
  have hone : tokenize "1 " = .ok [num "1"] := rfl
  have hforeign : tokenize "2$" = .error (.unexpectedChar '$' 1) := rfl
  have hseam : NumeralSeam "1+2." ".5 6" := by decide
  have hspace : ¬NumeralSeam "1 " ".5 6" := by decide
  have hjoined : tokenize ("1+2." ++ ".5 6") = .ok [num "1", op .add, num "2..5", num "6"] := by
    obtain ⟨us, x, y, vs, hus, hvs, hjoin⟩ := ((tokenize_append _ _).1 _ _ hsum htwo).2 hseam
    have hlast : [num "1", op .add] ++ [num "2."] = us ++ [num x] := hus
    obtain ⟨rfl, hx⟩ := List.append_inj' hlast rfl
    obtain ⟨hy, rfl⟩ := List.cons.inj hvs
    obtain rfl := Token.num.inj (List.singleton_inj.mp hx)
    obtain rfl := Token.num.inj hy
    exact hjoin
  have hmoved : tokenize ("1+2." ++ "2$") = .error (.unexpectedChar '$' 5) := by
    obtain ⟨c, i, hfault, herror⟩ := (tokenize_append _ _).2.2 _ _ hsum hforeign
    obtain ⟨rfl, rfl⟩ := Fault.unexpectedChar.inj hfault
    exact herror
  exact ⟨hsum, htwo, hseam, hjoined, hone, hspace, ((tokenize_append _ _).1 _ _ hone htwo).1 hspace, hforeign,
    (tokenize_append _ _).2.1 _ hforeign, hmoved⟩

end Append

end Token

end DeskCalc
