import Clausal.Search.Machine

/-!
# Clausal.Proofs.Search.Attempts — the heads that a search tries

A step is the attempt to unify the head of a copy of a clause with a goal.  The machine counts the steps, and a bound on
their number is checked before each of them.  To count the attempts themselves, the machine is run with an `attempt`
that does so.

* `counted`: `unify`, with a count of how often it is used.
* `Resolution.Counts`: how the attempts, the machine's own count and the bound go together when a goal is resolved;
  `resolveBy_counted` says so, and that the machine that counts its attempts does what the machine does.
* `afterUnder`, `afterBy`: the state after a number of turns.
* `Tried`: the number of heads tried so far; `Tried.step` says what a turn does to it, and `Tried.after` what many do.
-/

namespace Clausal

/-- The state that a turn leaves. -/
def Progress.machine : Progress → Machine
  | .running m | .answer _ m | .stopped _ m | .finished m => m

namespace Machine

variable {kb : HornBase} {limits : Limits} {m : Machine}

/-! ## Resolving a goal -/

section Resolve

/-- Unifies a head with a goal, and counts that it was tried. -/
def counted (head goal : Term) (s : Subst) : StateM Nat (Option Subst) :=
  fun count => (unify head goal s, count + 1)

theorem run_counted_bind {α : Type} (head goal : Term) (s : Subst) (next : Option Subst → StateM Nat α) (count : Nat) :
    (counted head goal s >>= next).run count = (next (unify head goal s)).run (count + 1) :=
  rfl

/-- The number of heads tried, the steps before and after and the bound on steps: every head is a step, a clause that
applies is one of those tried, and the bound holds for the heads tried, whatever came of it. -/
def Resolution.Counts (limits : Limits) (steps tried : Nat) : Resolution → Prop
  | .applied _ _ _ steps' _ =>
    steps' = steps + tried ∧ 0 < tried ∧ ∀ n, limits.maxSteps = some n → steps + tried ≤ n
  | .failed steps' _ => steps' = steps + tried ∧ ∀ n, limits.maxSteps = some n → steps ≤ n → steps + tried ≤ n
  | .stopped .. => ∀ n, limits.maxSteps = some n → steps ≤ n → steps + tried ≤ n

theorem Resolution.Counts.succ {steps tried : Nat} {r : Resolution} (hr : r.Counts limits (steps + 1) tried)
    (hstep : ∀ n, limits.maxSteps = some n → steps + 1 ≤ n) : r.Counts limits steps (tried + 1) := by
  have hsum : steps + (tried + 1) = steps + 1 + tried := by omega
  cases r with
  | applied premises s untried steps' n' =>
    obtain ⟨heq, -, hbound⟩ := hr
    exact ⟨by rw [hsum, heq], Nat.succ_pos tried, fun n hn => hsum ▸ hbound n hn⟩
  | failed steps' n' =>
    obtain ⟨heq, hbound⟩ := hr
    exact ⟨by rw [hsum, heq], fun n hn _ => hsum ▸ hbound n hn (hstep n hn)⟩
  | stopped limit steps' n' => exact fun n hn _ => hsum ▸ hr n hn (hstep n hn)

/-- If the bound is not passed by a step more, that step is within it. -/
theorem succ_le_of_filter_eq_none {bound : Option Nat} {steps : Nat} (h : bound.filter (· < steps + 1) = none) (n : Nat)
    (hn : bound = some n) : steps + 1 ≤ n := by
  subst hn
  simpa [Option.filter] using h

/-- Counting the attempts makes no difference to what comes of them, and there are as many as the steps say. -/
theorem resolveBy_counted (limits : Limits) (goal : Term) (s : Subst) (clauses : List HornClause)
    (steps n count : Nat) :
    ∃ tried, (resolveBy counted limits goal s clauses steps n).run count =
        (resolve limits goal s clauses steps n, count + tried) ∧
      (resolve limits goal s clauses steps n).Counts limits steps tried := by
  induction clauses generalizing steps n count with
  | nil => exact ⟨0, rfl, rfl, fun _ _ h => h⟩
  | cons h untried ih =>
    rw [resolveBy, resolve_cons]
    cases mayMatch h.head goal with
    | false => exact ih steps n count
    | true =>
      simp only [Bool.not_true, Bool.false_eq_true, if_false]
      cases hfree : limits.maxSteps.filter (· < steps + 1) with
      | some limit => exact ⟨0, rfl, fun _ _ h => h⟩
      | none =>
        have hstep := succ_le_of_filter_eq_none hfree
        dsimp only
        rw [run_counted_bind]
        cases unify (renameClause h n).1.1 goal s with
        | some s' => exact ⟨1, rfl, rfl, Nat.one_pos, hstep⟩
        | none =>
          obtain ⟨tried, hrun, hcounts⟩ := ih (steps + 1) (renameClause h n).2 (count + 1)
          refine ⟨tried + 1, ?_, hcounts.succ hstep⟩
          rw [Nat.add_comm tried, ← Nat.add_assoc]
          exact hrun

end Resolve

/-! ## Turns -/

section Turns

/-- The state after the given number of turns; `world k` is what the world says at turn `k`. -/
def afterUnder (kb : HornBase) (limits : Limits) (world : Nat → Signals) : Nat → Machine → Machine
  | 0, m => m
  | turns + 1, m => afterUnder kb limits (fun k => world (k + 1)) turns (step kb limits (world 0) m).machine

/-- The same, with `attempt` in the place of `unify`. -/
def afterBy {μ : Type → Type} [Monad μ] (attempt : Term → Term → Subst → μ (Option Subst)) (kb : HornBase)
    (limits : Limits) (world : Nat → Signals) : Nat → Machine → μ Machine
  | 0, m => pure m
  | turns + 1, m => do
    let result ← stepBy attempt kb limits (world 0) m
    afterBy attempt kb limits (fun k => world (k + 1)) turns result.machine

/-- The search has tried `count` heads on its way to the state `m`: no more than the bound allows, and as many as the
machine says, unless it has come to an end. -/
structure Tried (limits : Limits) (m : Machine) (count : Nat) : Prop where
  bound : ∀ n, limits.maxSteps = some n → count ≤ n
  steps : m.halted = false → m.steps = count

theorem Tried.of_halted {count : Nat} (hbound : ∀ n, limits.maxSteps = some n → count ≤ n) (hm : m.halted = true) :
    Tried limits m count := by
  refine ⟨hbound, fun hgoing => ?_⟩
  rw [hm] at hgoing
  cases hgoing

/-- A search that goes on without trying a head. -/
theorem Tried.of_steps_eq {m' : Machine} {count : Nat} (ht : Tried limits m count) (hm : m.halted = false)
    (hsteps : m'.steps = m.steps) : Tried limits m' count :=
  ⟨ht.bound, fun _ => hsteps.trans (ht.steps hm)⟩

theorem Tried.openBranch {count : Nat} (ht : Tried limits m count) (hm : m.halted = false) (b : Branch) :
    Tried limits (openBranch kb limits m b).machine count := by
  unfold Machine.openBranch
  split
  · exact .of_halted ht.bound rfl
  · exact ht.of_steps_eq hm rfl
  · exact ht.of_steps_eq hm rfl

/-- Resolving a goal adds as many as were tried. -/
theorem Tried.progress {count tried : Nat} (ht : Tried limits m count) (hm : m.halted = false) {r : Resolution}
    (hr : r.Counts limits m.steps tried) (b : Branch) (stack : List ChoicePoint) :
    Tried limits (r.progress m b stack).machine (count + tried) := by
  rw [ht.steps hm] at hr
  cases r with
  | stopped limit steps n => exact .of_halted (fun n hn => hr n hn (ht.bound n hn)) rfl
  | failed steps n => exact ⟨fun n hn => hr.2 n hn (ht.bound n hn), fun _ => hr.1⟩
  | applied premises s untried steps n =>
    refine ⟨hr.2.2, fun _ => ?_⟩
    unfold Resolution.progress
    dsimp only
    split <;> exact hr.1

/-- A turn with its attempts counted is the turn, and goes on with the count. -/
theorem Tried.step {count : Nat} (ht : Tried limits m count) (kb : HornBase) (now : Signals) :
    ∃ count', (stepBy counted kb limits now m).run count = (Machine.step kb limits now m, count') ∧
      Tried limits (Machine.step kb limits now m).machine count' := by
  rw [stepBy, step_eq]
  cases hm : m.halted with
  | true => exact ⟨count, rfl, ht⟩
  | false =>
    rw [if_neg Bool.false_ne_true, if_neg Bool.false_ne_true]
    cases interruption limits now with
    | some e => exact ⟨count, rfl, .of_halted ht.bound rfl⟩
    | none =>
      cases m.pending with
      | some b => exact ⟨count, rfl, ht.openBranch hm b⟩
      | none =>
        cases m.stack with
        | nil => exact ⟨count, rfl, .of_halted ht.bound rfl⟩
        | cons p stack =>
          -- the one kind of turn at which heads are tried
          obtain ⟨tried, hrun, hcounts⟩ := resolveBy_counted limits (p.branch.subst.apply p.branch.goal.term)
            p.branch.subst p.untried m.steps m.renamings count
          refine ⟨count + tried, ?_, ht.progress hm hcounts p.branch stack⟩
          dsimp only
          rw [resolvePointBy, StateT.run_bind, hrun]
          rfl

/-- So are many turns. -/
theorem Tried.after {count : Nat} (ht : Tried limits m count) (kb : HornBase) (world : Nat → Signals) (turns : Nat) :
    ∃ count', (afterBy counted kb limits world turns m).run count = (afterUnder kb limits world turns m, count') ∧
      Tried limits (afterUnder kb limits world turns m) count' := by
  induction turns generalizing m count world with
  | zero => exact ⟨count, rfl, ht⟩
  | succ turns ih =>
    obtain ⟨count₁, hrun, ht₁⟩ := ht.step kb (world 0)
    obtain ⟨count', hlater, ht'⟩ := ih ht₁ fun k => world (k + 1)
    refine ⟨count', ?_, ht'⟩
    rw [afterBy, StateT.run_bind, hrun]
    exact hlater

/-- A search starts with no heads tried. -/
theorem tried_start (limits : Limits) (query : Term) : Tried limits (.start query) 0 :=
  ⟨fun n _ => Nat.zero_le n, fun _ => rfl⟩

end Turns

end Machine

end Clausal
