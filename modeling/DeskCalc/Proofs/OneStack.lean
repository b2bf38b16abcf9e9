import DeskCalc.Proofs.Matching
import DeskCalc.Proofs.Surface

/-!
# DeskCalc.Proofs.OneStack — the operators that wait, on one stack

* The groups of a yard can be put on one stack of tokens (`Yard.stack`): under the operators of a group lies the
  parenthesis that opened it.  `Track` is the pass with such a stack, which it pops token by token; it goes step by
  step as the yard does (`step_track`, `after_track`) and gives the same order (`ofTokens_track`).
* An operator pops those on top of its group that bind as tightly, so the ones left under it bind less: the operators
  of a group bind the tighter the later they came (`Climbing`), and every step keeps it so (`climbs_step`).  There are
  two priorities, hence at most two of them wait (`Climbing.length_le_two`).
* `stack_climbs`: what lies on the stack after any tokens.
-/

namespace DeskCalc.Rpn

open Token

/-! ## The pass with one stack -/

/-- The state of a pass with one stack: the tokens written so far, the last one first, and the stack from its top. -/
structure Track where
  written : List Token
  stack : List Token
deriving DecidableEq

namespace Track

/-- Before the first token. -/
def empty : Track := ⟨[], []⟩

/-- Pops the operators on top of a stack that bind at least as tightly as `level`; a parenthesis stops it. -/
def pop (level : ℕ) (written : List Token) : List Token → Track
  | [] => ⟨written, []⟩
  | t :: stack =>
    match t.priority? with
    | some priority => if level ≤ priority then pop level (t :: written) stack else ⟨written, t :: stack⟩
    | none => ⟨written, t :: stack⟩

/-- Pops a stack down to an opening parenthesis, which is dropped. -/
def close (written : List Token) : List Token → Except Fault Track
  | [] => .error .unmatchedClose
  | lparen :: stack => .ok ⟨written, stack⟩
  | t :: stack => close (t :: written) stack

/-- Pops a stack down to its bottom. -/
def drain (written : List Token) : List Token → Except Fault (List Token)
  | [] => .ok written.reverse
  | lparen :: _ => .error .unclosedOpen
  | t :: stack => drain (t :: written) stack

/-- Takes one token. -/
def step (s : Track) : Token → Except Fault Track
  | num text => .ok { s with written := num text :: s.written }
  | op o => .ok { pop o.priority s.written s.stack with stack := op o :: (pop o.priority s.written s.stack).stack }
  | lparen => .ok { s with stack := lparen :: s.stack }
  | rparen => close s.written s.stack

/-- The pass over a list of tokens. -/
def run (ts : List Token) : Except Fault Track := ts.foldlM step empty

/-- The order of a list of tokens. -/
def ofTokens (ts : List Token) : Except Fault (List Token) := do
  let s ← run ts
  drain s.written s.stack

end Track

namespace Yard

variable {y y' : Yard} {ts written below : List Token} {os : List Operator} {o : Operator} {t : Token}

/-- The operators that wait, and under those of every open group the parenthesis that opened it. -/
def stack (y : Yard) : List Token := y.waiting.map op ++ y.enclosing.flatMap fun os => lparen :: os.map op

/-- The yard with its groups on one stack. -/
def track (y : Yard) : Track := ⟨y.written, y.stack⟩

/-! ## Pops -/

section Pops

/-- Popping goes on for as long as the operators bind tightly enough, and not into the next group. -/
theorem pop_ops (level : ℕ) (written : List Token) (os : List Operator) (h : ∀ t ∈ below.head?, t = lparen) :
    Track.pop level written (os.map op ++ below) =
      ⟨((os.takeWhile fun o => level ≤ o.priority).map op).reverse ++ written,
        (os.dropWhile fun o => level ≤ o.priority).map op ++ below⟩ := by
  induction os generalizing written with
  | nil =>
    cases below with
    | nil => rfl
    | cons t below =>
      obtain rfl := h t rfl
      rfl
  | cons o os ih =>
    show (if level ≤ o.priority then Track.pop level (op o :: written) (os.map op ++ below) else _) = _
    by_cases hle : level ≤ o.priority
    · rw [if_pos hle, ih, List.takeWhile_cons_of_pos (by simpa using hle), List.dropWhile_cons_of_pos (by simpa using hle)]
      simp
    · rw [if_neg hle, List.takeWhile_cons_of_neg (by simpa using hle), List.dropWhile_cons_of_neg (by simpa using hle)]
      rfl

theorem close_ops (written : List Token) (os : List Operator) (below : List Token) :
    Track.close written (os.map op ++ below) = Track.close ((os.map op).reverse ++ written) below := by
  induction os generalizing written with
  | nil => rfl
  | cons o os ih =>
    show Track.close (op o :: written) (os.map op ++ below) = _
    rw [ih]
    simp

theorem drain_ops (written : List Token) (os : List Operator) (below : List Token) :
    Track.drain written (os.map op ++ below) = Track.drain ((os.map op).reverse ++ written) below := by
  induction os generalizing written with
  | nil => rfl
  | cons o os ih =>
    show Track.drain (op o :: written) (os.map op ++ below) = _
    rw [ih]
    simp

end Pops

/-! ## The same pass -/

section Same

/-- A token does the same to the yard and to the stack. -/
theorem step_track (y : Yard) (t : Token) : y.track.step t = (y.step t).map track := by
  obtain ⟨written, waiting, enclosing⟩ := y
  cases t with
  | num text => rfl
  | op o =>
    have hbelow : ∀ t ∈ (enclosing.flatMap fun os => lparen :: os.map op).head?, t = lparen := by
      cases enclosing with
      | nil => simp
      | cons os rest => simp
    show Except.ok (Track.mk _ _) = Except.ok (Track.mk _ _)
    simp only [track, stack, settle, pop_ops _ _ _ hbelow]
    rfl
  | lparen => rfl
  | rparen =>
    show Track.close written (waiting.map op ++ _) = _
    rw [close_ops]
    cases enclosing with
    | nil => rfl
    | cons os rest =>
      show Except.ok (Track.mk _ _) = Except.ok (track { settle 0 _ with waiting := os, enclosing := rest })
      rw [settle_of_le_two (by omega)]
      rfl

theorem after_track (y : Yard) (ts : List Token) : ts.foldlM Track.step y.track = (y.after ts).map track := by
  induction ts generalizing y with
  | nil => rfl
  | cons t ts ih =>
    rw [List.foldlM_cons, after_cons, step_track]
    cases y.step t with
    | error f => rfl
    | ok y' => exact ih y'

theorem drain_track (y : Yard) : Track.drain y.written y.stack = y.finish := by
  obtain ⟨written, waiting, enclosing⟩ := y
  show Track.drain written (waiting.map op ++ _) = _
  rw [drain_ops]
  cases enclosing with
  | nil =>
    show _ = Except.ok _
    rw [settle_of_le_two (by omega)]
    rfl
  | cons os rest => rfl

end Same

/-! ## Order in the groups -/

section Order

/-- The operators of a group bind the tighter the later they came; the last one stands first. -/
def Climbing (os : List Operator) : Prop := os.Pairwise fun a b => b.priority < a.priority

/-- In every group the operators that wait are climbing. -/
def Climbs (y : Yard) : Prop := ∀ os ∈ y.waiting :: y.enclosing, Climbing os

/-- An operator that binds more tightly than the last one binds more tightly than all. -/
theorem Climbing.cons (h : Climbing os) (ho : ∀ a ∈ os.head?, a.priority < o.priority) : Climbing (o :: os) := by
  refine List.pairwise_cons.mpr ⟨fun b hb => ?_, h⟩
  cases os with
  | nil => cases hb
  | cons a os =>
    have ha : a.priority < o.priority := ho a rfl
    rcases List.mem_cons.mp hb with rfl | hb
    · exact ha
    · exact ((List.pairwise_cons.mp h).1 b hb).trans ha

/-- Only two priorities can stand one above the other. -/
theorem Climbing.length_le_two (h : Climbing os) : os.length ≤ 2 := by
  have hrange : ∀ o : Operator, 2 ≤ o.priority ∧ o.priority ≤ 3 := by
    intro o
    cases o <;> decide
  rcases os with _ | ⟨a, _ | ⟨b, _ | ⟨c, os⟩⟩⟩
  · simp
  · simp
  · simp
  · obtain ⟨ha, hrest⟩ := List.pairwise_cons.mp h
    have hab := ha b (by simp)
    have hbc := (List.pairwise_cons.mp hrest).1 c (by simp)
    have hhigh := (hrange a).2
    have hlow := (hrange c).1
    omega

theorem Climbs.settle (h : y.Climbs) (level : ℕ) : (y.settle level).Climbs := by
  intro os hos
  rcases List.mem_cons.mp hos with rfl | hos
  · exact (h y.waiting (List.mem_cons_self ..)).sublist (List.dropWhile_sublist _)
  · exact h os (List.mem_cons_of_mem _ hos)

/-- **One token** keeps the operators of every group climbing. -/
theorem climbs_step (h : y.Climbs) (hstep : y.step t = .ok y') : y'.Climbs := by
  cases t with
  | num text =>
    obtain rfl := Except.ok.inj hstep
    exact h
  | op o =>
    obtain rfl := Except.ok.inj hstep
    intro os hos
    rcases List.mem_cons.mp hos with rfl | hos
    · exact Climbing.cons (h.settle o.priority _ (List.mem_cons_self ..)) (settled_settle o.priority y)
    · exact h os (List.mem_cons_of_mem _ hos)
  | lparen =>
    obtain rfl := Except.ok.inj hstep
    intro os hos
    rcases List.mem_cons.mp hos with rfl | hos
    · exact List.Pairwise.nil
    · exact h os hos
  | rparen =>
    obtain ⟨written, waiting, enclosing⟩ := y
    cases enclosing with
    | nil => cases hstep
    | cons group rest =>
      obtain rfl := Except.ok.inj hstep
      intro os hos
      exact h os (List.mem_cons_of_mem _ hos)

theorem climbs_after (h : y.Climbs) (hafter : y.after ts = .ok y') : y'.Climbs :=
  Fault.foldlM_invariant (P := fun _ z => z.Climbs) h (fun _ _ _ _ ih hstep => climbs_step ih hstep) hafter

end Order

/-! ## What lies on the stack -/

section Stack

theorem mem_stack (h : t ∈ y.stack) : t = lparen ∨ ∃ o, t = op o := by
  rcases List.mem_append.mp h with h | h
  · obtain ⟨o, -, rfl⟩ := List.mem_map.mp h
    exact Or.inr ⟨o, rfl⟩
  · obtain ⟨os, -, h⟩ := List.mem_flatMap.mp h
    rcases List.mem_cons.mp h with rfl | h
    · exact Or.inl rfl
    · obtain ⟨o, -, rfl⟩ := List.mem_map.mp h
      exact Or.inr ⟨o, rfl⟩

theorem count_lparen_ops (os : List Operator) : (os.map op).count lparen = 0 := by
  rw [List.count_eq_zero]
  simp

/-- One parenthesis for every open group. -/
theorem count_lparen_stack (y : Yard) : y.stack.count lparen = y.enclosing.length := by
  obtain ⟨written, waiting, enclosing⟩ := y
  show ((waiting.map op ++ enclosing.flatMap fun os => lparen :: os.map op).count lparen) = enclosing.length
  rw [List.count_append, count_lparen_ops, Nat.zero_add]
  induction enclosing with
  | nil => rfl
  | cons os rest ih =>
    rw [List.flatMap_cons, List.count_append, ih, List.count_cons_self, count_lparen_ops, List.length_cons]
    omega

/-- Two operators and a parenthesis for every group. -/
theorem length_groups_le {groups : List (List Operator)} (h : ∀ os ∈ groups, Climbing os) :
    (groups.flatMap fun os => lparen :: os.map op).length ≤ 3 * groups.length := by
  induction groups with
  | nil => simp
  | cons os groups ih =>
    obtain ⟨hos, hgroups⟩ := List.forall_mem_cons.mp h
    have htwo := hos.length_le_two
    have hle := ih hgroups
    simp only [List.flatMap_cons, List.length_append, List.length_cons, List.length_map]
    omega

theorem Climbs.length_stack_le (h : y.Climbs) : y.stack.length ≤ 3 * y.enclosing.length + 2 := by
  obtain ⟨hwaiting, henclosing⟩ := List.forall_mem_cons.mp h
  have htwo := hwaiting.length_le_two
  have hle := length_groups_le henclosing
  unfold stack
  rw [List.length_append, List.length_map]
  omega

/-- Operators that lie together on the stack belong to one group. -/
theorem Climbs.of_infix (h : y.Climbs) (hos : os.map op <:+: y.stack) : Climbing os := by
  obtain ⟨written, waiting, enclosing⟩ := y
  have hgroup : ∀ group : List Operator, Climbing group → os.map op <:+: group.map op → Climbing os := by
    intro group hclimbing hinfix
    obtain ⟨part, hpart, hmap⟩ := List.infix_map_iff.mp hinfix
    obtain rfl := List.map_injective_iff.mpr (fun a b hab => Token.op.inj hab) hmap
    exact hclimbing.sublist hpart.sublist
  induction enclosing generalizing waiting with
  | nil =>
    have hall : os.map op <:+: waiting.map op := by simpa [stack] using hos
    exact hgroup waiting (h waiting (List.mem_cons_self ..)) hall
  | cons group rest ih =>
    obtain ⟨hwaiting, hrest⟩ := List.forall_mem_cons.mp h
    have hsplit : os.map op <:+: waiting.map op ++ lparen :: stack ⟨written, group, rest⟩ := hos
    have hnot : lparen ∉ os.map op := by simp
    rcases (Text.infix_append_cons_iff hnot).mp hsplit with hin | hin
    · exact hgroup waiting hwaiting hin
    · exact ih group hrest hin

end Stack

end Yard

/-! ## Any list of tokens -/

section Any

variable {ts : List Token} {s : Track}

theorem run_track (ts : List Token) : Track.run ts = (run ts).map Yard.track := Yard.empty.after_track ts

theorem ofTokens_track (ts : List Token) : Track.ofTokens ts = ofTokens ts := by
  rw [Track.ofTokens, run_track, ofTokens]
  cases run ts with
  | error f => rfl
  | ok y => exact y.drain_track

/-- The state of the pass with one stack is the state of a yard. -/
theorem exists_yard_of_run (h : Track.run ts = .ok s) : ∃ y, run ts = .ok y ∧ y.track = s := by
  rw [run_track] at h
  cases hy : run ts with
  | error f =>
    rw [hy] at h
    cases h
  | ok y =>
    rw [hy] at h
    exact ⟨y, rfl, Except.ok.inj h⟩

theorem climbs_of_run {y : Yard} (h : run ts = .ok y) : y.Climbs := by
  refine Yard.climbs_after (y := Yard.empty) ?_ h
  intro os hos
  obtain rfl := List.mem_singleton.mp hos
  exact List.Pairwise.nil

/-- **The stack of the pass.**  The pass with one stack is the pass of the yard.  After any tokens its stack holds
operators and opening parentheses only, one parenthesis for each group that is open; operators with no parenthesis
between them bind the tighter the higher they lie, so there are at most two of them, and at most two more than three
tokens for each open group. -/
theorem stack_climbs (ts : List Token) :
    Track.ofTokens ts = ofTokens ts ∧ Track.run ts = (run ts).map Yard.track ∧
    ∀ s, Track.run ts = .ok s →
      (∀ t ∈ s.stack, t = lparen ∨ ∃ o, t = op o) ∧
      s.stack.count lparen + ts.count rparen = ts.count lparen ∧
      (∀ os : List Operator, os.map op <:+: s.stack →
        os.Pairwise (fun a b => b.priority < a.priority) ∧ os.length ≤ 2) ∧
      s.stack.length ≤ 3 * s.stack.count lparen + 2 := by
  refine ⟨ofTokens_track ts, run_track ts, fun s hs => ?_⟩
  obtain ⟨y, hy, rfl⟩ := exists_yard_of_run hs
  have hclimbs := climbs_of_run hy
  have hdepth : y.enclosing.length + ts.count rparen = ts.count lparen := by
    have h := Yard.length_enclosing_after hy
    rwa [show Yard.empty.enclosing.length = 0 from rfl, Nat.zero_add] at h
  have hcount : y.track.stack.count lparen = y.enclosing.length := y.count_lparen_stack
  rw [hcount]
  refine ⟨fun t ht => Yard.mem_stack ht, hdepth, fun os hos => ?_, hclimbs.length_stack_le⟩
  have hclimbing := hclimbs.of_infix hos
  exact ⟨hclimbing, hclimbing.length_le_two⟩

/-- Two groups are open, and the operators stand in a heap without their operands. -/
theorem stack_climbs_nested :
    Track.run [num "1", op .sub, op .mul, lparen, op .div, op .add, op .mul, lparen] =
      .ok ⟨[op .div, num "1"], [lparen, op .mul, op .add, lparen, op .mul, op .sub]⟩ ∧
    lparen ∈ [lparen, op .mul, op .add, lparen, op .mul, op .sub] ∧ (lparen = lparen ∨ ∃ o, lparen = op o) ∧
    [lparen, op .mul, op .add, lparen, op .mul, op .sub].count lparen + 0 = 2 ∧
    [Operator.mul, .add].map op <:+: [lparen, op .mul, op .add, lparen, op .mul, op .sub] ∧
    [Operator.mul, .add].Pairwise (fun a b => b.priority < a.priority) ∧ [Operator.mul, .add].length ≤ 2 ∧
    [lparen, op .mul, op .add, lparen, op .mul, op .sub].length ≤ 3 * 2 + 2 := by
  have hrun : Track.run [num "1", op .sub, op .mul, lparen, op .div, op .add, op .mul, lparen] =
      .ok ⟨[op .div, num "1"], [lparen, op .mul, op .add, lparen, op .mul, op .sub]⟩ := rfl
  have hmem : lparen ∈ [lparen, op .mul, op .add, lparen, op .mul, op .sub] := by decide
  have hinfix : [Operator.mul, .add].map op <:+: [lparen, op .mul, op .add, lparen, op .mul, op .sub] :=
    ⟨[lparen], [lparen, op .mul, op .sub], rfl⟩
  obtain ⟨-, -, hstack⟩ := stack_climbs [num "1", op .sub, op .mul, lparen, op .div, op .add, op .mul, lparen]
  obtain ⟨hkinds, hcount, horder, hlength⟩ := hstack _ hrun
  exact ⟨hrun, hmem, hkinds _ hmem, hcount, hinfix, (horder _ hinfix).1, (horder _ hinfix).2, hlength⟩

end Any

end DeskCalc.Rpn
