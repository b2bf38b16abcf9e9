import DeskCalc.Proofs.Below
import DeskCalc.Proofs.Group
import DeskCalc.Proofs.Result

/-!
# DeskCalc.Proofs.Context — an entry in parentheses inside another one

* A parenthesis separates what stands before it from what stands after it: for the check, which finds the same ends,
  an even number of parentheses and no pattern across it (`check_inside_iff`), and for the cut into tokens
  (`close_scan_inside`).
* An entry that passes the check and has a value (`HasValue`) therefore counts, in parentheses, by its value alone:
  either the text around it is refused before anything is worked out (`evaluate_inside_of_not_admits`), or the outcome
  is a function of the value (`evaluate_inside`).
* `evaluate_inside_result`: so an entry may be replaced by its result.  The result must not be `0`, which is also
  written for minus zero, nor negative, because its minus sign would take part in the expression.
-/

namespace DeskCalc

open Text Token Grammar Literal Binary64

variable {e s u r pre post : String} {x : Float}

/-- A text in parentheses between two others. -/
def inside (pre post s : String) : String := pre ++ "(" ++ s ++ ")" ++ post

theorem toList_inside (pre post s : String) :
    (inside pre post s).toList = pre.toList ++ '(' :: (s.toList ++ ')' :: post.toList) := by
  simp [inside]

/-! ## The check -/

namespace Surface

theorem parenCount_inside (pre post s : String) :
    parenCount (inside pre post s).toList =
      parenCount pre.toList + parenCount s.toList + parenCount post.toList + 2 := by
  simp only [parenCount, toList_inside, List.countP_append, List.countP_cons]
  simp
  omega

theorem infix_inside_iff {p : String} (hp : p ∈ barredPatterns) :
    p.toList <:+: (inside pre post s).toList ↔
      p.toList <:+: pre.toList ∨ p.toList <:+: s.toList ∨ p.toList <:+: post.toList := by
  have hall : ∀ p ∈ barredPatterns, '(' ∉ p.toList ∧ ')' ∉ p.toList := by decide
  obtain ⟨hopen, hclose⟩ := hall p hp
  rw [toList_inside, infix_append_cons_iff hopen, infix_append_cons_iff hclose]

theorem firstVisible?_inside (pre post s : String) :
    firstVisible? (inside pre post s).toList = (firstVisible? pre.toList).or (some '(') := by
  rw [toList_inside, firstVisible?_append_cons (by decide)]

theorem lastVisible?_inside (pre post s : String) :
    lastVisible? (inside pre post s).toList = (lastVisible? post.toList).or (some ')') := by
  have happ : (inside pre post s).toList = (pre.toList ++ '(' :: s.toList) ++ ')' :: post.toList := by
    simp [inside]
  rw [happ, lastVisible?_append_cons (by decide)]

/-- **The check in parentheses**: it looks at the text around an entry that passes it as if nothing stood between the
parentheses. -/
theorem check_inside_iff (h : check s = .ok ()) :
    check (inside pre post s) = .ok () ↔ check (inside pre post "") = .ok () := by
  obtain ⟨-, -, hparens, hpatterns⟩ := check_eq_ok_iff.mp h
  have hparity : parenCount (inside pre post s).toList % 2 = 0 ↔ parenCount (inside pre post "").toList % 2 = 0 := by
    have hnil : parenCount "".toList = 0 := rfl
    rw [parenCount_inside, parenCount_inside, hnil]
    omega
  have hpattern : ∀ p ∈ barredPatterns,
      (¬p.toList <:+: (inside pre post s).toList ↔ ¬p.toList <:+: (inside pre post "").toList) := by
    intro p hp
    have hne : ∀ p ∈ barredPatterns, p.toList ≠ [] := by decide
    rw [infix_inside_iff hp, infix_inside_iff hp]
    simp [hpatterns p hp, hne p hp]
  rw [check_eq_ok_iff, check_eq_ok_iff, firstVisible?_inside, firstVisible?_inside, lastVisible?_inside,
    lastVisible?_inside, hparity, forall₂_congr hpattern]

end Surface

/-! ## Tokens -/

namespace Token

theorem close_scan_inside (pre post s : String) :
    (scan (inside pre post s).toList).close =
      (scan pre.toList).close ++ lparen :: ((scan s.toList).close ++ rparen :: (scan post.toList).close) := by
  rw [toList_inside, close_scan_append_cons (t := lparen) rfl rfl, close_scan_append_cons (t := rparen) rfl rfl]

theorem forall_isKnown_inside_iff (h : ∀ c ∈ s.toList, isKnown c = true) :
    (∀ c ∈ (inside pre post s).toList, isKnown c = true) ↔
      (∀ c ∈ pre.toList, isKnown c = true) ∧ ∀ c ∈ post.toList, isKnown c = true := by
  have hopen : isKnown '(' = true := by decide
  have hclose : isKnown ')' = true := by decide
  rw [toList_inside]
  simp only [List.forall_mem_append, List.forall_mem_cons, hopen, hclose, true_and]
  exact ⟨fun ⟨hpre, _, hpost⟩ => ⟨hpre, hpost⟩, fun ⟨hpre, hpost⟩ => ⟨hpre, h, hpost⟩⟩

end Token

/-! ## Values in parentheses -/

section Values

/-- The texts between which a group may stand, if only the check and the cut into tokens are asked. -/
def Admits (pre post : String) : Prop :=
  Surface.check (inside pre post "") = .ok () ∧
    (∀ c ∈ pre.toList, isKnown c = true) ∧ ∀ c ∈ post.toList, isKnown c = true

/-- The outcome of a value in parentheses between two texts. -/
def outcomeInside (pre post : String) (x : Float) : Except Fault String := do
  let rpn ← Rpn.surround (scan pre.toList).close (scan post.toList).close
  let stack ← Rpn.stackAfter [] rpn.1
  let stack ← Rpn.stackAfter (x :: stack) rpn.2
  finiteText (← Rpn.only stack)

/-- What stands in parentheses cannot be the reason why the text around them is refused. -/
theorem HasValue.admits_iff (h : HasValue s x) :
    Admits pre post ↔ ∃ ts, Working.tokensOf (inside pre post s) = .ok ts := by
  rw [Admits, ← Surface.check_inside_iff h.1, ← forall_isKnown_inside_iff h.isKnown]
  simp only [Working.tokensOf, Fault.bind_eq_ok_iff, tokenize_eq_ok_iff]
  constructor
  · rintro ⟨hc, hk⟩
    exact ⟨_, (), hc, hk, rfl⟩
  · rintro ⟨_, ⟨⟩, hc, hk, -⟩
    exact ⟨hc, hk⟩

/-- **The outcome depends on the value alone.** -/
theorem evaluate_inside (h : HasValue s x) (ha : Admits pre post) :
    evaluate (inside pre post s) = outcomeInside pre post x := by
  obtain ⟨us, hus⟩ := h.admits_iff.mp ha
  obtain ⟨-, ts, ht, rpn, hr, hv⟩ := h
  obtain ⟨-, -, hcut⟩ := Fault.bind_eq_ok_iff.mp hus
  obtain rfl := (tokenize_eq_ok_iff.mp ht).2
  obtain rfl := (tokenize_eq_ok_iff.mp hcut).2
  rw [evaluate_eq, hus]
  show (Rpn.ofTokens (scan (inside pre post s).toList).close >>= Working.outcomeOf) = _
  rw [close_scan_inside, Rpn.ofTokens_group hr, outcomeInside]
  cases Rpn.surround (scan pre.toList).close (scan post.toList).close with
  | error f => rfl
  | ok p =>
    show Working.outcomeOf (p.1 ++ rpn ++ p.2) = _
    rw [Working.outcomeOf, Rpn.value_block hv, bind_assoc]
    simp only [bind_assoc]
    rfl

theorem evaluate_inside_of_not_admits (h : HasValue s x) (ha : ¬Admits pre post) :
    ∃ f, evaluate (inside pre post s) = .error f ∧ f.kind = .surface := by
  cases ht : Working.tokensOf (inside pre post s) with
  | error f =>
    refine ⟨f, ?_, Working.kind_of_tokensOf ht⟩
    rw [evaluate_eq, ht]
    rfl
  | ok ts => exact absurd (h.admits_iff.mpr ⟨ts, ht⟩) ha

/-- Entries of one value are as good as each other in parentheses. -/
theorem evaluate_inside_congr (hs : HasValue s x) (hu : HasValue u x) (pre post : String) :
    (∃ t, evaluate (inside pre post s) = .ok t ∧ evaluate (inside pre post u) = .ok t) ∨
    ∃ f g, evaluate (inside pre post s) = .error f ∧ evaluate (inside pre post u) = .error g ∧ f.kind = g.kind := by
  by_cases ha : Admits pre post
  · rw [evaluate_inside hs ha, evaluate_inside hu ha]
    cases outcomeInside pre post x with
    | error f => exact Or.inr ⟨f, f, rfl, rfl, rfl⟩
    | ok t => exact Or.inl ⟨t, rfl, rfl⟩
  · obtain ⟨f, hf, hfkind⟩ := evaluate_inside_of_not_admits hs ha
    obtain ⟨g, hg, hgkind⟩ := evaluate_inside_of_not_admits hu ha
    exact Or.inr ⟨f, g, hf, hg, hfkind.trans hgkind.symm⟩

end Values

/-! ## Results in parentheses -/

section Results

/-- The text of a finite value that is neither zero nor negative has that value. -/
theorem hasValue_text (hx : x.isFinite = true) (h0 : Answer.text x ≠ "0")
    (hminus : (Answer.text x).toList.head? ≠ some '-') : HasValue (Answer.text x) x := by
  obtain ⟨hc, ⟨htext, hcode⟩ | ⟨htext, -⟩⟩ := Answer.text_cases hx
  · have hne : code x ≠ 0 := by
      intro hzero
      rw [htext, hzero] at h0
      exact h0 Answer.numeral_zero
    have hv := hasValue_numeral hc
    rw [← hcode hne] at hv
    rwa [htext]
  · rw [htext] at hminus
    exact absurd (by simp) hminus

/-- **An entry in parentheses may be replaced by its result**, whatever stands around it, unless the result is `0` or
negative: the two outcomes are the same text, or faults of the same kind. -/
theorem evaluate_inside_result (he : evaluate e = .ok r) (h0 : r ≠ "0") (hminus : r.toList.head? ≠ some '-')
    (pre post : String) :
    (∃ t, evaluate (pre ++ "(" ++ e ++ ")" ++ post) = .ok t ∧ evaluate (pre ++ "(" ++ r ++ ")" ++ post) = .ok t) ∨
    ∃ f g, evaluate (pre ++ "(" ++ e ++ ")" ++ post) = .error f ∧
      evaluate (pre ++ "(" ++ r ++ ")" ++ post) = .error g ∧ f.kind = g.kind := by
  obtain ⟨x, hv, hx, rfl⟩ := hasValue_of_evaluate he
  exact evaluate_inside_congr hv (hasValue_text hx h0 hminus) pre post

theorem evaluate_inside_result_sum :
    evaluate "1+2" = .ok "3" ∧ "3" ≠ "0" ∧ "3".toList.head? ≠ some '-' ∧
    ((∃ t, evaluate ("2*" ++ "(" ++ "1+2" ++ ")" ++ "") = .ok t ∧ evaluate ("2*" ++ "(" ++ "3" ++ ")" ++ "") = .ok t) ∨
      ∃ f g, evaluate ("2*" ++ "(" ++ "1+2" ++ ")" ++ "") = .error f ∧
        evaluate ("2*" ++ "(" ++ "3" ++ ")" ++ "") = .error g ∧ f.kind = g.kind) := by
  have h : evaluate "1+2" = .ok "3" := by decide +kernel
  exact ⟨h, by decide, by decide, evaluate_inside_result h (by decide) (by decide) "2*" ""⟩

/-- The text `0` does not tell whether the value was minus zero, but a division by it does. -/
example : evaluate "0*(0-1)" = .ok "0" ∧ evaluate "1/(1/(0*(0-1))+1/0)" = .error .overflow ∧
    evaluate "1/(1/(0)+1/0)" = .ok "0" := by
  decide +kernel

end Results

end DeskCalc
