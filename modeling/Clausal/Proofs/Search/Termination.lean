import Clausal.Proofs.Search.Attempts
import Clausal.Proofs.Search.Requests

/-!
# Clausal.Proofs.Search.Termination — bounded searches end

A search that may not go deeper than some number of goals, or that may not try more than some number of clause heads,
answers every request after finitely many turns, and after finitely many results it has no more.

* `Descends`: a number that every turn lowers, unless the search is over with it.  `Descends.returns` and
  `Descends.responds` say what follows for one request and for all of them.
* `cost`: the number for a search whose goals have a bounded number of ancestors.  The goals at hand may become more at
  every turn, so each is weighed by the depth that is left below it, together with the goals after it; a choice point is
  weighed by the clauses that are still to be tried.
* `stepCost`: the number for a search with a bound on its steps, of which not every turn takes one.
* `bounded_search_ends`: the main statement.
-/

namespace Clausal.Machine

open Procedure

variable {kb : HornBase} {limits : Limits} {query : Term} {m m' : Machine} {now : Signals}

/-! ## Turns that lower a number -/

section Descent

/-- The state from which a search goes on after a turn, if it does. -/
def continued : Progress → Option Machine
  | .running m | .answer _ m => some m
  | .stopped .. | .finished _ => none

/-- Among the states with `Inv`, every turn after which a search goes on lowers `μ`. -/
structure Descends (kb : HornBase) (limits : Limits) (Inv : Machine → Prop) (μ : Machine → Nat) : Prop where
  keeps : ∀ {now : Signals} {m m' : Machine}, Inv m → continued (step kb limits now m) = some m' → Inv m'
  lowers : ∀ {now : Signals} {m m' : Machine}, Inv m → continued (step kb limits now m) = some m' → μ m' < μ m

variable {Inv : Machine → Prop} {μ : Machine → Nat} {fuel : Nat}

/-- A request is answered within as many turns as the number says, and if there may be more results, it has sunk. -/
theorem Descends.returns (hd : Descends kb limits Inv μ) (hm : Inv m) (hfuel : μ m < fuel) (world : Nat → Signals) :
    ∃ r m', returned (runUnder kb limits world fuel m) = some (r, m') ∧ (m'.halted = true ∨ Inv m' ∧ μ m' < μ m) := by
  induction fuel generalizing m world with
  | zero => exact absurd hfuel (Nat.not_lt_zero _)
  | succ fuel ih =>
    cases hstep : step kb limits (world 0) m with
    | running m₁ =>
      have hcont : continued (step kb limits (world 0) m) = some m₁ := by rw [hstep]; rfl
      have hlt := hd.lowers hm hcont
      obtain ⟨r, m', hret, hleft⟩ := ih (hd.keeps hm hcont) (by omega) fun k => world (k + 1)
      rw [runUnder_of_running hstep]
      exact ⟨r, m', hret, hleft.imp_right fun h => ⟨h.1, h.2.trans hlt⟩⟩
    | answer s m₁ =>
      have hcont : continued (step kb limits (world 0) m) = some m₁ := by rw [hstep]; rfl
      have hret : returned (step kb limits (world 0) m) = some (some (.ok s), m₁) := by rw [hstep]; rfl
      rw [runUnder_of_returned hret]
      exact ⟨some (.ok s), m₁, hret, .inr ⟨hd.keeps hm hcont, hd.lowers hm hcont⟩⟩
    | stopped e m₁ =>
      have hret : returned (step kb limits (world 0) m) = some (some (.error e), m₁) := by rw [hstep]; rfl
      rw [runUnder_of_returned hret]
      exact ⟨some (.error e), m₁, hret, .inl (halted_of_returned hret nofun)⟩
    | finished m₁ =>
      have hret : returned (step kb limits (world 0) m) = some (none, m₁) := by rw [hstep]; rfl
      rw [runUnder_of_returned hret]
      exact ⟨none, m₁, hret, .inl (halted_of_returned hret nofun)⟩

/-- Every request is answered, and after as many as the number says there are no more results. -/
theorem Descends.responds (hd : Descends kb limits Inv μ) (hm : Inv m) (hfuel : μ m < fuel)
    (world : Nat → Nat → Signals) (i : Nat) :
    ∃ r, response? kb limits fuel world m i = some r ∧ (μ m < i → r = none) := by
  induction i generalizing m world with
  | zero =>
    obtain ⟨r, m', hret, -⟩ := hd.returns hm hfuel (world 0)
    exact ⟨r, response?_zero hret, fun h => absurd h (Nat.not_lt_zero _)⟩
  | succ i ih =>
    obtain ⟨r, m', hret, hover | ⟨hm', hlt⟩⟩ := hd.returns hm hfuel (world 0)
    · rw [response?_succ hret]
      obtain ⟨fuel, rfl⟩ : ∃ f, fuel = f + 1 := ⟨fuel - 1, by omega⟩
      exact ⟨none, response?_of_halted hover i, fun _ => rfl⟩
    · -- the number has sunk by one at least, and so has the number of the request
      rw [response?_succ hret]
      obtain ⟨r', hr', hend⟩ := ih hm' (hlt.trans hfuel) fun j => world (j + 1)
      exact ⟨r', hr', fun h => hend (by omega)⟩

end Descent

/-! ## A bound on the ancestors of a goal -/

section Depth

/-- Goals, each with the depth that is left below it. -/
def budgeted (depth : Nat) (goals : List Goal) : List (Nat × Goal) :=
  goals.map fun g => (depth - g.ancestors.length, g)

/-- A choice point as a choice whose goals have their depths.  The numbers of the copies have no part in its cost. -/
def choiceWithin (depth : Nat) (p : ChoicePoint) : Choice where
  depth := depth - (p.branch.goal.ancestors.length + 1)
  goal := p.branch.goal
  rest := budgeted depth p.branch.rest
  context := ⟨p.branch.subst, 0⟩
  untried := p.untried

/-- The number of turns that a search may take that opens goals with fewer than `depth` ancestors only. -/
def cost (kb : HornBase) (depth : Nat) (m : Machine) : Nat :=
  (m.pending.elim 0 fun b => goalsCost kb (budgeted depth (Branch.goals b))) +
    (m.stack.map fun p => (choiceWithin depth p).cost kb).sum

variable {depth : Nat}

theorem goalsCost_next (b : Branch) (premises : List Term) :
    goalsCost kb (budgeted depth (Branch.next b premises)) =
      (goalCost kb (depth - (b.goal.ancestors.length + 1)))^[premises.length]
        (goalsCost kb (budgeted depth b.rest)) := by
  rw [← goalsCost_premiseGoals (g := b.goal) premises]
  congr 1
  simp [budgeted, Branch.next, premiseGoals]

theorem goalsCost_goals {b : Branch} (hb : b.goal.ancestors.length < depth) :
    goalsCost kb (budgeted depth (Branch.goals b)) = 1 + (choiceWithin depth ⟨b, kb.clauses⟩).cost kb := by
  have hdepth : depth - b.goal.ancestors.length = depth - (b.goal.ancestors.length + 1) + 1 := by omega
  simp only [budgeted, Branch.goals, goalsCost, choiceWithin, Choice.cost, List.map_cons, List.foldr_cons, hdepth,
    goalCost]
  omega

/-- A choice point weighs more than what comes of the first clause that applies to its goal, and what is left of it. -/
theorem cost_choiceWithin_apply (kb : HornBase) (depth : Nat) (b : Branch) (pre untried : List HornClause)
    (h : HornClause) (k : Nat) :
    goalsCost kb (budgeted depth (Branch.next b (renameClause h k).1.2)) + (choiceWithin depth ⟨b, untried⟩).cost kb <
      (choiceWithin depth ⟨b, pre ++ h :: untried⟩).cost kb := by
  rw [goalsCost_next, renameClause_eq, List.length_map]
  simp only [choiceWithin, Choice.cost, List.map_append, List.map_cons, List.sum_append, List.sum_cons]
  omega

/-- A turn lowers the cost if the goals that it lets pass have fewer ancestors than the depth. -/
theorem cost_lt_of_turn {result : Progress} (hturn : Turn kb limits m result) (hm' : continued result = some m')
    (hopen : ∀ b go, m.pending = some b → checkGoal limits b = .ok go → b.goal.ancestors.length < depth) :
    m'.cost kb depth < m.cost kb depth := by
  cases hturn with
  | halted _ | exhausted _ _ _ | interrupted _ | refused _ _ _ _ | spent _ _ _ _ _ _ _ _ => cases hm'
  | pruned b hb hgo =>
    cases hm'
    simp only [cost, hb, Option.elim, goalsCost_goals (hopen b _ hb hgo)]
    omega
  | opened b hb hgo =>
    -- the weight of the goals covers the choice point that they become
    cases hm'
    simp only [cost, hb, Option.elim, goalsCost_goals (hopen b _ hb hgo), List.map_cons, List.sum_cons]
    omega
  | failed p stack steps n hpend hstack _ _ =>
    cases hm'
    have hpos : 0 < (choiceWithin depth p).cost kb := by
      rw [Choice.cost]
      omega
    simp only [cost, hpend, hstack, Option.elim, List.map_cons, List.sum_cons]
    omega
  | applied b pre h untried stack k s goal rest steps n hpend hstack _ hnext =>
    cases hm'
    have hlt := cost_choiceWithin_apply kb depth b pre untried h k
    rw [hnext] at hlt
    simp only [cost, hpend, hstack, Option.elim, List.map_cons, List.sum_cons, Branch.goals]
    omega
  | answered b pre h untried stack k s steps n hpend hstack _ _ =>
    cases hm'
    have hlt := cost_choiceWithin_apply kb depth b pre untried h k
    simp only [cost, hpend, hstack, Option.elim, List.map_cons, List.sum_cons]
    omega

theorem descends_of_open {Inv : Machine → Prop}
    (hkeeps : ∀ {now : Signals} {m m' : Machine}, Inv m → continued (step kb limits now m) = some m' → Inv m')
    (hopen : ∀ m b go, Inv m → m.pending = some b → checkGoal limits b = .ok go → b.goal.ancestors.length < depth) :
    Descends kb limits Inv (cost kb depth) where
  keeps := hkeeps
  lowers {now m _} hm hcont := cost_lt_of_turn (turn_step kb limits now m) hcont fun b go => hopen m b go hm

/-- The query itself is always opened; a goal with ancestors has fewer of them than the bound. -/
theorem length_ancestors_lt_of_checkGoal {d : Nat} (hd : limits.maxDepth = some d) {b : Branch} {go : Bool}
    (h : checkGoal limits b = .ok go) : b.goal.ancestors.length < max d 1 := by
  unfold checkGoal at h
  split at h
  · next hnil =>
    rw [List.isEmpty_iff] at hnil
    rw [hnil]
    exact Nat.le_max_right d 1
  · split at h
    · cases h
    · next hfree =>
      rw [hd] at hfree
      have hlt : b.goal.ancestors.length < d := by simpa [Option.filter] using hfree
      omega

theorem descends_of_maxDepth {d : Nat} (hd : limits.maxDepth = some d) :
    Descends kb limits (fun _ => True) (cost kb (max d 1)) :=
  descends_of_open (fun _ _ => trivial) fun _ _ _ _ _ h => length_ancestors_lt_of_checkGoal hd h

end Depth

/-! ## A bound on the steps -/

section Steps

/-- The number of turns that a search may take if `n` steps are allowed: at most three for every step that is left, two
to open and leave the pending branch, and one to leave each choice point. -/
def stepCost (n : Nat) (m : Machine) : Nat :=
  3 * (n - m.steps) + (m.pending.elim 0 fun _ => 2) + m.stack.length

theorem stepCost_lt_of_openBranch {n : Nat} {b : Branch} (hb : m.pending = some b) (hm : m.steps ≤ n)
    (hm' : continued (openBranch kb limits m b) = some m') : m'.steps ≤ n ∧ m'.stepCost n < m.stepCost n := by
  unfold openBranch at hm'
  split at hm'
  · cases hm'
  · cases hm'
    refine ⟨hm, ?_⟩
    simp only [stepCost, hb, Option.elim, List.length_cons]
    omega
  · cases hm'
    refine ⟨hm, ?_⟩
    simp only [stepCost, hb, Option.elim]
    omega

theorem stepCost_lt_of_resolvePoint {n : Nat} {p : ChoicePoint} {stack : List ChoicePoint}
    (hmax : limits.maxSteps = some n) (hpend : m.pending = none) (hstack : m.stack = p :: stack) (hm : m.steps ≤ n)
    (hm' : continued (resolvePoint limits m p stack) = some m') : m'.steps ≤ n ∧ m'.stepCost n < m.stepCost n := by
  obtain ⟨tried, -, hcounts⟩ := resolveBy_counted limits (p.branch.subst.apply p.branch.goal.term) p.branch.subst
    p.untried m.steps m.renamings 0
  rw [resolvePoint_eq] at hm'
  unfold Resolution.progress at hm'
  split at hm'
  · cases hm'
  · next steps k heq =>
    cases hm'
    rw [heq] at hcounts
    obtain ⟨hsteps, hbound⟩ := hcounts
    have hle := hbound n hmax hm
    refine ⟨by dsimp only; omega, ?_⟩
    simp only [stepCost, hpend, hstack, Option.elim, List.length_cons]
    omega
  · next premises s untried steps k heq =>
    rw [heq] at hcounts
    obtain ⟨hsteps, hpos, hbound⟩ := hcounts
    have hle := hbound n hmax
    -- a step at least is spent, and it pays for the new pending branch, if there is one
    split at hm'
    all_goals
      cases hm'
      refine ⟨by dsimp only; omega, ?_⟩
      simp only [stepCost, hpend, hstack, Option.elim, List.length_cons]
      omega

theorem stepCost_lt_of_step {n : Nat} (hmax : limits.maxSteps = some n) (hm : m.steps ≤ n)
    (hm' : continued (step kb limits now m) = some m') : m'.steps ≤ n ∧ m'.stepCost n < m.stepCost n := by
  rw [step_eq] at hm'
  split at hm'
  · cases hm'
  · split at hm'
    · cases hm'
    · split at hm'
      · next b hb => exact stepCost_lt_of_openBranch hb hm hm'
      · next p stack hpend hstack => exact stepCost_lt_of_resolvePoint hmax hpend hstack hm hm'
      · cases hm'

theorem descends_of_maxSteps {n : Nat} (hmax : limits.maxSteps = some n) :
    Descends kb limits (fun m => m.steps ≤ n) (stepCost n) where
  keeps hm hcont := (stepCost_lt_of_step hmax hm hcont).1
  lowers hm hcont := (stepCost_lt_of_step hmax hm hcont).2

end Steps

/-! ## Bounded searches -/

section Bounded

/-- A search that descends ends. -/
theorem Descends.ends {Inv : Machine → Prop} {μ : Machine → Nat} (hd : Descends kb limits Inv μ) (hm : Inv m) :
    ∃ bound, ∀ world i, ∃ r, response? kb limits bound world m i = some r ∧ (bound ≤ i → r = none) := by
  refine ⟨μ m + 1, fun world i => ?_⟩
  obtain ⟨r, hr, hend⟩ := hd.responds hm (Nat.lt_succ_self _) world i
  exact ⟨r, hr, fun hle => hend hle⟩

/-- **Bounded searches end.**  If the depth or the number of steps is bounded, there is a number of turns that is enough
for every request, and after that many requests there are no more results, whatever the world says at each turn. -/
theorem bounded_search_ends (kb : HornBase) (limits : Limits) (query : Term)
    (hbound : limits.maxDepth.isSome = true ∨ limits.maxSteps.isSome = true) :
    ∃ bound, ∀ world i, ∃ r, response? kb limits bound world (.start query) i = some r ∧ (bound ≤ i → r = none) := by
  rcases hbound with hdepth | hsteps
  · obtain ⟨d, hd⟩ := Option.isSome_iff_exists.mp hdepth
    exact (descends_of_maxDepth hd).ends trivial
  · obtain ⟨n, hn⟩ := Option.isSome_iff_exists.mp hsteps
    exact (descends_of_maxSteps hn).ends (Nat.zero_le n)

/-- `p(X) ← p(f(X)), p(f(X))`: two goals for one, and every one of them is new. -/
def growingBase : HornBase :=
  let goal : Term := .rel true "p" [.fn false "f" (.var false "X")]
  ⟨[⟨⟨false, [.rel false "p" [.var false "X"], goal]⟩, .rel false "p" [.var false "X"], rfl⟩]⟩

/-- One step, and no other limit. -/
def oneStep : Limits :=
  { Limits.unbounded with maxSteps := some 1 }

/-- The search for `p(a)` ends under the standard limits; with one step it ends by hitting that bound. -/
theorem growingBase_ends :
    let m : Machine := .start (.rel false "p" [.const "a"])
    (Limits.standard.maxDepth.isSome = true ∧ ∃ bound, ∀ world i, ∃ r,
      response? growingBase .standard bound world m i = some r ∧ (bound ≤ i → r = none)) ∧
    (oneStep.maxSteps.isSome = true ∧ ∃ bound, ∀ world i, ∃ r,
      response? growingBase oneStep bound world m i = some r ∧ (bound ≤ i → r = none)) ∧
    response? growingBase oneStep 4 (fun _ _ => ⟨false, 0⟩) m 0 = some (some (.error (.stepLimit 1))) :=
  ⟨⟨rfl, bounded_search_ends _ _ _ (.inl rfl)⟩, ⟨rfl, bounded_search_ends _ _ _ (.inr rfl)⟩, rfl⟩

end Bounded

end Clausal.Machine
