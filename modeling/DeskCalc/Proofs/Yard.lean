import DeskCalc.Grammar
import DeskCalc.Rpn.Order
import Mathlib.Data.List.TakeWhile
import Mathlib.Order.Basic
import Mathlib.Tactic.SplitIfs

/-!
# DeskCalc.Proofs.Yard — what the pass into reverse Polish order keeps

* A yard holds every token it has taken but the parentheses (`contents_step`, `contents_after`), so the result is a
  rearrangement of the tokens without parentheses (`perm_of_ofTokens`).
* A yard is `Settled` at a level if no operator that binds that tightly waits.  From such a yard a sentence of the
  level changes nothing but what is written, and what it writes is the post-order of its tree (`after_sentence`).
* `ofTokens_sentence`: the order of a sentence is the post-order of its tree.
-/

namespace DeskCalc.Rpn

open Token Grammar

namespace Yard

variable {y y' : Yard} {t : Token} {ts us : List Token}

/-! ## Runs -/

/-- The yard after a list of tokens. -/
def after (y : Yard) (ts : List Token) : Except Fault Yard := ts.foldlM step y

@[simp] theorem after_nil (y : Yard) : y.after [] = .ok y := rfl

theorem after_cons (y : Yard) (t : Token) (ts : List Token) :
    y.after (t :: ts) = y.step t >>= fun y => y.after ts := by
  simp [after]

theorem after_append (y : Yard) (ts us : List Token) :
    y.after (ts ++ us) = y.after ts >>= fun y => y.after us := by
  simp [after]

/-! ## Settling -/

section Settle

/-- No operator that binds as tightly as `level` waits in the innermost group. -/
def Settled (level : ℕ) (y : Yard) : Prop := ∀ o ∈ y.waiting.head?, o.priority < level

/-- The yard with a list of tokens written. -/
def write (rpn : List Token) (y : Yard) : Yard := { y with written := rpn.reverse ++ y.written }

/-- Down to level `2` nothing goes on waiting. -/
theorem settle_of_le_two {level : ℕ} (h : level ≤ 2) (y : Yard) :
    y.settle level = { y with written := (y.waiting.map op).reverse ++ y.written, waiting := [] } := by
  have hall : ∀ o ∈ y.waiting, decide (level ≤ o.priority) = true := by
    intro o _
    have ho : 2 ≤ o.priority := by cases o <;> decide
    exact decide_eq_true (h.trans ho)
  simp only [settle, List.takeWhile_eq_self_iff.mpr hall, List.dropWhile_eq_nil_iff.mpr hall]

theorem Settled.settle_eq {level : ℕ} (h : y.Settled level) : y.settle level = y := by
  obtain ⟨written, waiting, enclosing⟩ := y
  cases waiting with
  | nil => rfl
  | cons o os =>
    have ho : o.priority < level := h o rfl
    simp [settle, Nat.not_le.mpr ho]

/-- What settles a group leaves operators that bind less tightly than the level. -/
theorem settled_settle (level : ℕ) (y : Yard) : (y.settle level).Settled level := by
  intro o ho
  have hnot := List.head?_dropWhile_not (fun o : Operator => decide (level ≤ o.priority)) y.waiting
  rw [show (y.waiting.dropWhile fun o => level ≤ o.priority).head? = some o from ho] at hnot
  simpa using hnot

theorem settle_settle {low high : ℕ} (h : low ≤ high) (y : Yard) : (y.settle high).settle low = y.settle low := by
  obtain ⟨written, waiting, enclosing⟩ := y
  induction waiting generalizing written with
  | nil => rfl
  | cons o os ih =>
    by_cases ho : high ≤ o.priority
    · have hl : low ≤ o.priority := h.trans ho
      simpa [settle, ho, hl] using ih (op o :: written)
    · simp [settle, ho]

/-- An operator on top of a settled group is the only one to go. -/
theorem settle_cons {level : ℕ} {o : Operator} (ho : level ≤ o.priority) (h : y.Settled level) :
    { y with waiting := o :: y.waiting }.settle level = y.write [op o] := by
  have hdrop : (y.waiting.dropWhile fun p => level ≤ p.priority) = y.waiting := congrArg Yard.waiting h.settle_eq
  have htake : (y.waiting.takeWhile fun p => level ≤ p.priority) = [] := by
    have hsplit := List.takeWhile_append_dropWhile (p := fun p : Operator => decide (level ≤ p.priority)) (l := y.waiting)
    rwa [hdrop, List.append_left_eq_self] at hsplit
  have hgo : ((o :: y.waiting).takeWhile fun p => level ≤ p.priority) = [o] := by
    rw [List.takeWhile_cons_of_pos (by simpa using ho), htake]
  have hstay : ((o :: y.waiting).dropWhile fun p => level ≤ p.priority) = y.waiting := by
    rw [List.dropWhile_cons_of_pos (by simpa using ho), hdrop]
  simp only [settle, hgo, hstay]
  rfl

end Settle

/-! ## Nothing is lost -/

section Contents

/-- The tokens in a yard: those written and the operators that wait. -/
def contents (y : Yard) : List Token := y.written ++ (y.waiting ++ y.enclosing.flatten).map op

theorem contents_settle (level : ℕ) (y : Yard) : (y.settle level).contents.Perm y.contents := by
  obtain ⟨written, waiting, enclosing⟩ := y
  refine List.perm_iff_count.mpr fun a => ?_
  have hw : (waiting.map op).count a =
      ((waiting.takeWhile fun o => level ≤ o.priority).map op).count a +
        ((waiting.dropWhile fun o => level ≤ o.priority).map op).count a := by
    rw [← List.count_append, ← List.map_append, List.takeWhile_append_dropWhile]
  simp only [contents, settle, List.map_append, List.count_append, List.count_reverse]
  omega

/-- A token that is no parenthesis is kept, a parenthesis is not. -/
theorem contents_step (h : y.step t = .ok y') :
    y'.contents.Perm ([t].filter (fun t => !t.isParen) ++ y.contents) := by
  cases t with
  | num text =>
    obtain rfl := Except.ok.inj h
    simp [contents, isParen]
  | op o =>
    obtain rfl := Except.ok.inj h
    have hs := contents_settle o.priority y
    refine List.Perm.trans ?_ (hs.cons (op o))
    simp only [contents, settle, List.cons_append, List.map_cons]
    exact List.perm_middle
  | lparen =>
    obtain rfl := Except.ok.inj h
    simp [contents, isParen]
  | rparen =>
    obtain ⟨written, waiting, enclosing⟩ := y
    cases enclosing with
    | nil => simp [step] at h
    | cons os rest =>
      obtain rfl := Except.ok.inj h
      have hs := contents_settle 0 ⟨written, waiting, os :: rest⟩
      rw [settle_of_le_two (by omega)] at hs ⊢
      exact hs

theorem contents_after (h : y.after ts = .ok y') :
    y'.contents.Perm (ts.filter (fun t => !t.isParen) ++ y.contents) := by
  refine Fault.foldlM_invariant (P := fun us z => z.contents.Perm (us.filter (fun t => !t.isParen) ++ y.contents))
    (List.Perm.refl _) ?_ h
  intro us t y₁ y₂ ih h₁
  refine (contents_step h₁).trans ((ih.append_left _).trans ?_)
  rw [← List.append_assoc, List.filter_append]
  exact List.perm_append_comm.append_right _

end Contents

/-! ## Sentences -/

section Sentences

/-- The priority of the operators that join the parts of a level; a factor has none. -/
def strength : Level → ℕ
  | .sum => Operator.add.priority
  | .product => Operator.mul.priority
  | .factor => Operator.mul.priority + 1

theorem settled_factor (y : Yard) : y.Settled (strength .factor) := by
  intro o _
  cases o <;> decide

theorem Settled.mono {low high : ℕ} (h : y.Settled low) (hl : low ≤ high) : y.Settled high :=
  fun o ho => (h o ho).trans_le hl

/-- The two parts of an operation, read one after the other, and the operator between them. -/
theorem after_operation {o : Operator} {l r : Level} {left right : List Token} (hl : strength l = o.priority)
    (hlr : o.priority < strength r) (hy : y.Settled o.priority)
    (ihl : ∃ y', y.after ts = .ok y' ∧ y'.settle (strength l) = y.write left)
    (ihr : ∀ z : Yard, z.Settled (strength r) →
      ∃ z', z.after us = .ok z' ∧ z'.settle (strength r) = z.write right) :
    ∃ y', y.after (ts ++ op o :: us) = .ok y' ∧ y'.settle (strength l) = y.write (left ++ right ++ [op o]) := by
  obtain ⟨y₁, h₁, hs₁⟩ := ihl
  rw [hl] at hs₁ ⊢
  -- after the operator, it alone waits on top of what waited before
  have hop : y₁.step (op o) = .ok { y.write left with waiting := o :: y.waiting } := by
    simp only [step, hs₁]
    rfl
  obtain ⟨z', h₂, hs₂⟩ := ihr { y.write left with waiting := o :: y.waiting } (by
    intro p hp
    obtain rfl := Option.some.inj hp
    exact hlr)
  refine ⟨z', ?_, ?_⟩
  · rw [after_append, h₁]
    show y₁.after (op o :: us) = _
    rw [after_cons, hop]
    exact h₂
  · rw [← settle_settle hlr.le, hs₂]
    have hw : ((y.write left).write right).Settled o.priority := hy
    have hc := settle_cons (le_refl o.priority) hw
    refine Eq.trans hc ?_
    simp [write]

/-- **Sentences**: read from a yard that is settled at its level, a sentence writes the post-order of its tree, up to
the operators of its own level, and leaves the rest as it was. -/
theorem after_sentence {level : Level} {e : Expr} (h : Sentence level ts e) (hy : y.Settled (strength level)) :
    ∃ y', y.after ts = .ok y' ∧ y'.settle (strength level) = y.write e.rpn := by
  induction h generalizing y with
  | num text => exact ⟨y.write [num text], rfl, Settled.settle_eq (settled_factor _)⟩
  | @group ts e _ ih =>
    -- the group is read from a yard of its own, in which nothing waits
    obtain ⟨y₁, h₁, hs₁⟩ := ih (y := { y with waiting := [], enclosing := y.waiting :: y.enclosing }) (by
      intro o ho
      exact absurd ho (by simp))
    have he : y₁.enclosing = y.waiting :: y.enclosing := congrArg Yard.enclosing hs₁
    have hz : y₁.settle 0 = { y.write e.rpn with waiting := [], enclosing := y.waiting :: y.enclosing } := by
      rw [← settle_settle (Nat.zero_le (strength .sum)), hs₁]
      rfl
    refine ⟨y.write e.rpn, ?_, Settled.settle_eq (settled_factor _)⟩
    rw [after_cons]
    show Yard.after _ (ts ++ [rparen]) = _
    rw [after_append, h₁]
    show y₁.after [rparen] = _
    rw [after_cons]
    simp only [step, he, hz]
    rfl
  | factor _ ih =>
    obtain ⟨y', h₁, hs₁⟩ := ih (settled_factor y)
    refine ⟨y', h₁, ?_⟩
    rw [← settle_settle (by decide : strength .product ≤ strength .factor), hs₁]
    exact Settled.settle_eq (y := y.write _) hy
  | product _ ih =>
    obtain ⟨y', h₁, hs₁⟩ := ih (hy.mono (by decide))
    refine ⟨y', h₁, ?_⟩
    rw [← settle_settle (by decide : strength .sum ≤ strength .product), hs₁]
    exact Settled.settle_eq (y := y.write _) hy
  | @times o _ _ _ _ ho _ _ ihl ihr =>
    have hp : strength .product = o.priority := by rcases ho with rfl | rfl <;> rfl
    exact after_operation hp (by rw [← hp]; decide) (hp ▸ hy) (ihl hy) (fun _ => ihr)
  | @plus o _ _ _ _ ho _ _ ihl ihr =>
    have hp : strength .sum = o.priority := by rcases ho with rfl | rfl <;> rfl
    exact after_operation hp (by rw [← hp]; decide) (hp ▸ hy) (ihl hy) (fun _ => ihr)

end Sentences

end Yard

/-! ## Whole lists -/

section Whole

variable {ts : List Token}

theorem ofTokens_eq (ts : List Token) : ofTokens ts = Yard.empty.after ts >>= Yard.finish := rfl

/-- The order of a list of tokens is a rearrangement of its tokens without the parentheses. -/
theorem perm_of_ofTokens {rpn : List Token} (h : ofTokens ts = .ok rpn) :
    rpn.Perm (ts.filter fun t => !t.isParen) := by
  rw [ofTokens_eq, Fault.bind_eq_ok_iff] at h
  obtain ⟨y, h₁, h₂⟩ := h
  have hc := Yard.contents_after h₁
  unfold Yard.finish at h₂
  split_ifs at h₂ with he
  obtain rfl := Except.ok.inj h₂
  have hs := Yard.contents_settle 0 y
  have hy : (y.settle 0).contents = (y.settle 0).written := by
    simp [Yard.contents, Yard.settle_of_le_two, he]
  rw [hy] at hs
  refine (List.reverse_perm _).trans (hs.trans (hc.trans ?_))
  simp [Yard.contents, Yard.empty]

/-- A token that is no parenthesis stands in the order as often as in the list. -/
theorem count_of_ofTokens {rpn : List Token} {t : Token} (h : ofTokens ts = .ok rpn) (ht : t.isParen = false) :
    rpn.count t = ts.count t := by
  rw [(perm_of_ofTokens h).count_eq]
  exact List.count_filter (by simp [ht])

/-- No parenthesis gets into the order. -/
theorem isParen_of_mem_ofTokens {rpn : List Token} {t : Token} (h : ofTokens ts = .ok rpn) (ht : t ∈ rpn) :
    t.isParen = false := by
  have hmem := (perm_of_ofTokens h).mem_iff.mp ht
  simpa using (List.mem_filter.mp hmem).2

/-- The order of a sentence is the post-order of its tree. -/
theorem ofTokens_sentence {e : Expr} (h : Sentence .sum ts e) : ofTokens ts = .ok e.rpn := by
  obtain ⟨y, h₁, hs₁⟩ := Yard.after_sentence (y := Yard.empty) h (by
    intro o ho
    exact absurd ho (by simp [Yard.empty]))
  have he : y.enclosing = [] := congrArg Yard.enclosing hs₁
  have hz : y.settle 0 = Yard.empty.write e.rpn := by
    rw [← Yard.settle_settle (Nat.zero_le (Yard.strength .sum)), hs₁]
    rfl
  rw [ofTokens_eq, h₁]
  show y.finish = _
  rw [Yard.finish, if_pos he, hz]
  simp [Yard.write, Yard.empty]

end Whole

end DeskCalc.Rpn
