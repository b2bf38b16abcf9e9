import DeskCalc.Proofs.Yard

/-!
# DeskCalc.Proofs.Matching — parentheses that match

* `Overclosed ts`: some beginning of the tokens closes more groups than it opens.  `Matched ts`: none does, and the
  whole list closes as many as it opens.
* The number of open groups in a yard follows the parentheses alone (`length_enclosing_step`), so a pass fails exactly
  on the first closing parenthesis too many (`after_eq_error_iff`).
* `ofTokens_eq_error_iff`: hence the two faults of a list of tokens.
* `ofTokens_decides_matching`: which of the outcomes it is, and with which text, is decided by the parentheses alone,
  whatever literals and operators stand between them.
-/

namespace DeskCalc.Rpn

open Token

variable {t : Token} {ts rpn : List Token} {f : Fault}

/-- Some beginning of the tokens closes more groups than it opens. -/
def Overclosed (ts : List Token) : Prop := ∃ front, front <+: ts ∧ front.count lparen < front.count rparen

/-- Every group that is closed was opened before, and every group that is opened is closed. -/
def Matched (ts : List Token) : Prop := ¬Overclosed ts ∧ ts.count rparen = ts.count lparen

/-- The whole list is one of its beginnings. -/
theorem count_rparen_le (h : ¬Overclosed ts) : ts.count rparen ≤ ts.count lparen := by
  by_contra hlt
  exact h ⟨ts, List.prefix_rfl, by omega⟩

namespace Yard

variable {y y' : Yard}

/-! ## One token -/

/-- What a token does to the number of open groups. -/
theorem length_enclosing_step (h : y.step t = .ok y') :
    y'.enclosing.length + [t].count rparen = y.enclosing.length + [t].count lparen := by
  cases t with
  | num text =>
    obtain rfl := Except.ok.inj h
    rfl
  | op o =>
    obtain rfl := Except.ok.inj h
    rfl
  | lparen =>
    obtain rfl := Except.ok.inj h
    rfl
  | rparen =>
    obtain ⟨written, waiting, enclosing⟩ := y
    cases enclosing with
    | nil => cases h
    | cons os rest =>
      obtain rfl := Except.ok.inj h
      rfl

/-- A token fails only if it closes a group and none is open. -/
theorem step_eq_error_iff : y.step t = .error f ↔ f = .unmatchedClose ∧ t = rparen ∧ y.enclosing = [] := by
  obtain ⟨written, waiting, enclosing⟩ := y
  cases t with
  | num text => simp [step]
  | op o => simp [step]
  | lparen => simp [step]
  | rparen =>
    cases enclosing with
    | nil => simp [step, eq_comm]
    | cons os rest => simp [step]

/-! ## A list of tokens -/

theorem length_enclosing_after (h : y.after ts = .ok y') :
    y'.enclosing.length + ts.count rparen = y.enclosing.length + ts.count lparen := by
  refine Fault.foldlM_invariant
    (P := fun us z => z.enclosing.length + us.count rparen = y.enclosing.length + us.count lparen) rfl ?_ h
  intro us t y₁ y₂ ih h₁
  have hstep := length_enclosing_step h₁
  rw [List.count_append, List.count_append]
  omega

/-- A pass fails on the first token that closes a group too many, the groups that were open before it included. -/
theorem after_eq_error_iff :
    y.after ts = .error f ↔
      f = .unmatchedClose ∧ ∃ front, front <+: ts ∧ y.enclosing.length + front.count lparen < front.count rparen := by
  induction ts generalizing y with
  | nil => simp
  | cons t ts ih =>
    rw [after_cons]
    cases h₁ : y.step t with
    | error g =>
      obtain ⟨rfl, rfl, hopen⟩ := step_eq_error_iff.mp h₁
      have hfront : ∃ front, front <+: rparen :: ts ∧ y.enclosing.length + front.count lparen < front.count rparen :=
        ⟨[rparen], ⟨ts, rfl⟩, by simp [hopen]⟩
      exact ⟨fun h => ⟨(Except.error.inj h).symm, hfront⟩, fun ⟨hf, _⟩ => hf ▸ rfl⟩
    | ok y₁ =>
      have hstep := length_enclosing_step h₁
      have hcons : ∀ front : List Token, y.enclosing.length + (t :: front).count lparen < (t :: front).count rparen ↔
          y₁.enclosing.length + front.count lparen < front.count rparen := by
        intro front
        rw [← List.singleton_append, List.count_append, List.count_append]
        omega
      show y₁.after ts = .error f ↔ _
      rw [ih]
      refine and_congr_right fun _ => ⟨?_, ?_⟩
      · rintro ⟨front, hfront, hcount⟩
        exact ⟨t :: front, List.cons_prefix_cons.mpr ⟨rfl, hfront⟩, (hcons front).mpr hcount⟩
      · rintro ⟨front, hfront, hcount⟩
        rcases List.prefix_cons_iff.mp hfront with rfl | ⟨rest, rfl, hrest⟩
        · simp at hcount
        · exact ⟨rest, hrest, (hcons rest).mp hcount⟩

end Yard

/-! ## The order of a list of tokens -/

section Whole

/-- **The faults of an order** are those of the parentheses: a group closed too many, or one never closed. -/
theorem ofTokens_eq_error_iff :
    ofTokens ts = .error f ↔
      (f = .unmatchedClose ∧ Overclosed ts) ∨
      (f = .unclosedOpen ∧ ¬Overclosed ts ∧ ts.count rparen < ts.count lparen) := by
  have hover : ∀ g, Yard.empty.after ts = .error g ↔ g = .unmatchedClose ∧ Overclosed ts := by
    intro g
    rw [Yard.after_eq_error_iff, Overclosed]
    simp [Yard.empty]
  rw [ofTokens_eq]
  cases h₁ : Yard.empty.after ts with
  | error g =>
    obtain ⟨rfl, hts⟩ := (hover g).mp h₁
    constructor
    · intro h
      exact Or.inl ⟨(Except.error.inj h).symm, hts⟩
    · rintro (⟨rfl, -⟩ | ⟨-, hnot, -⟩)
      · rfl
      · exact absurd hts hnot
  | ok y =>
    have hts : ¬Overclosed ts := by
      intro hts
      rw [(hover .unmatchedClose).mpr ⟨rfl, hts⟩] at h₁
      cases h₁
    have hlen : y.enclosing.length + ts.count rparen = ts.count lparen := by
      have h := Yard.length_enclosing_after h₁
      rwa [show Yard.empty.enclosing.length = 0 from rfl, Nat.zero_add] at h
    show y.finish = .error f ↔ _
    rw [Yard.finish]
    split_ifs with he
    · have hcount : ts.count rparen = ts.count lparen := by simpa [he] using hlen
      simp [hts, hcount]
    · have hpos : 0 < y.enclosing.length := List.length_pos_iff.mpr he
      have hcount : ts.count rparen < ts.count lparen := by omega
      simp [hts, hcount, eq_comm]

/-- A list of tokens has an order exactly if its parentheses match. -/
theorem exists_ofTokens_iff : (∃ rpn, ofTokens ts = .ok rpn) ↔ Matched ts := by
  cases h : ofTokens ts with
  | error f =>
    have hnot : ¬Matched ts := by
      rintro ⟨hover, hcount⟩
      rcases ofTokens_eq_error_iff.mp h with ⟨-, hf⟩ | ⟨-, -, hf⟩
      · exact hover hf
      · omega
    simp [hnot]
  | ok rpn =>
    have hno : ∀ f, ofTokens ts ≠ .error f := by simp [h]
    have hover : ¬Overclosed ts := fun hover => hno _ (ofTokens_eq_error_iff.mpr (Or.inl ⟨rfl, hover⟩))
    have hle := count_rparen_le hover
    have hge : ¬ts.count rparen < ts.count lparen :=
      fun hlt => hno _ (ofTokens_eq_error_iff.mpr (Or.inr ⟨rfl, hover, hlt⟩))
    exact iff_of_true ⟨rpn, rfl⟩ ⟨hover, by omega⟩

theorem kind_of_ofTokens (h : ofTokens ts = .error f) : f.kind = .rpn := by
  rcases ofTokens_eq_error_iff.mp h with ⟨rfl, -⟩ | ⟨rfl, -, -⟩
  · rfl
  · rfl

/-- An order is empty exactly if there are only parentheses. -/
theorem eq_nil_iff_of_ofTokens (h : ofTokens ts = .ok rpn) : rpn = [] ↔ ∀ t ∈ ts, t.isParen = true := by
  have hperm := perm_of_ofTokens h
  constructor
  · rintro rfl
    have hnil := hperm.nil_eq
    simpa [List.filter_eq_nil_iff] using hnil.symm
  · intro hall
    have hnil : ts.filter (fun t => !t.isParen) = [] := by simpa [List.filter_eq_nil_iff] using hall
    rw [hnil] at hperm
    exact hperm.eq_nil

end Whole

/-! ## Only the parentheses decide -/

section Decision

theorem overclosed_filter : Overclosed (ts.filter isParen) ↔ Overclosed ts := by
  constructor
  · rintro ⟨front, ⟨back, hsplit⟩, hcount⟩
    -- a beginning of the parentheses is what a beginning of the tokens has of them
    obtain ⟨front', back', rfl, rfl, -⟩ := List.filter_eq_append_iff.mp hsplit.symm
    refine ⟨front', List.prefix_append front' back', ?_⟩
    rwa [List.count_filter rfl, List.count_filter rfl] at hcount
  · rintro ⟨front, hfront, hcount⟩
    refine ⟨front.filter isParen, hfront.filter isParen, ?_⟩
    rwa [List.count_filter rfl, List.count_filter rfl]

/-- A list of tokens fails as its parentheses do without the rest. -/
theorem ofTokens_filter_eq_error_iff : ofTokens (ts.filter isParen) = .error f ↔ ofTokens ts = .error f := by
  rw [ofTokens_eq_error_iff, ofTokens_eq_error_iff, overclosed_filter, List.count_filter rfl, List.count_filter rfl]

/-- **Matching is decided exactly**: the fault of a group closed too many is reported if some beginning closes more
groups than it opens, that of an open group if none does and the whole list opens more than it closes, and otherwise
there is an order.  The literals and operators have no part in it. -/
theorem ofTokens_decides_matching (ts : List Token) :
    ((∃ f, ofTokens ts = .error f ∧ f.kind = .rpn ∧ f.detail = "parenthèse fermante sans ouvrante") ↔
      Overclosed ts) ∧
    ((∃ f, ofTokens ts = .error f ∧ f.kind = .rpn ∧ f.detail = "parenthèse ouvrante non fermée") ↔
      ¬Overclosed ts ∧ ts.count rparen < ts.count lparen) ∧
    ((∃ rpn, ofTokens ts = .ok rpn) ↔ ¬Overclosed ts ∧ ¬ts.count rparen < ts.count lparen) ∧
    ∀ f, ofTokens (ts.filter isParen) = .error f ↔ ofTokens ts = .error f := by
  refine ⟨⟨?_, ?_⟩, ⟨?_, ?_⟩, ?_, fun f => ofTokens_filter_eq_error_iff⟩
  · rintro ⟨f, hf, -, htext⟩
    rcases ofTokens_eq_error_iff.mp hf with ⟨-, hover⟩ | ⟨rfl, -⟩
    · exact hover
    · exact absurd htext (by decide)
  · intro hover
    exact ⟨.unmatchedClose, ofTokens_eq_error_iff.mpr (Or.inl ⟨rfl, hover⟩), rfl, rfl⟩
  · rintro ⟨f, hf, -, htext⟩
    rcases ofTokens_eq_error_iff.mp hf with ⟨rfl, -⟩ | ⟨-, hopen⟩
    · exact absurd htext (by decide)
    · exact hopen
  · intro hopen
    exact ⟨.unclosedOpen, ofTokens_eq_error_iff.mpr (Or.inr ⟨rfl, hopen⟩), rfl, rfl⟩
  · rw [exists_ofTokens_iff, Matched]
    refine and_congr_right fun hover => ?_
    have hle := count_rparen_le hover
    omega

end Decision

end DeskCalc.Rpn
