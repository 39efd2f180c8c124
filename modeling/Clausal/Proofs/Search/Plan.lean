import Mathlib.Algebra.GroupWithZero.Nat
import Mathlib.Logic.Function.Iterate
import Clausal.Proofs.Search.Copy
import Clausal.Proofs.Search.Procedure

/-!
# Clausal.Proofs.Search.Plan — what is left of a search by recursion

A recursive search that is under way has goals at hand and choices that are open.  A plan lists them, and stands for the
sequence of results that is still to come.

* `Plan`: the goals at hand and the open choices; every goal has a depth down to which it may be opened.
* `Plan.results`: the results still to come, those of the goals at hand first, then those of the choices from the last
  one down.
* `Plan.Deep`, `Plan.cost`: how far the goals are from their depth at least, and how many turns they take at most.
* `Continues`: a plan that stands for the same results, and is cheaper and hardly less deep.  `continues_open`,
  `continues_prune`, `continues_fail`, `continues_apply`: the ways to carry a plan on.
* `startPlan`: the plan that stands for all results of a query.
-/

namespace Clausal.Procedure

open Machine

variable {kb : HornBase} {policy : CyclePolicy}

/-! ## Plans -/

section Plans

/-- Goals to be proved, each with the depth down to which it may be opened, and where their proof starts. -/
structure Task where
  goals : List (Nat × Goal)
  context : Context

/-- A goal that is being proved, by the rules that have not been tried, and the goals after it; the premises of a rule
may be opened down to the given depth. -/
structure Choice where
  depth : Nat
  goal : Goal
  rest : List (Nat × Goal)
  context : Context
  untried : List HornClause

/-- What is still to be done: the task at hand, and the choices that are open, last one first. -/
structure Plan where
  task : Option Task
  choices : List Choice

/-- Proves goals from left to right, each down to its own depth. -/
def pursue (kb : HornBase) (policy : CyclePolicy) : List (Nat × Goal) → Context → Results Context
  | [], c => .one c
  | (depth, g) :: goals, c => (proveGoal kb policy depth g.ancestors g.term c).bind (pursue kb policy goals)

/-- What the rules that have not been tried come to. -/
def Choice.results (kb : HornBase) (policy : CyclePolicy) (q : Choice) : Results Context :=
  let body := proveBody (proveGoal kb policy q.depth (q.goal.term :: q.goal.ancestors))
  (Results.concat (q.untried.map (useRule body q.goal.term q.context))).bind (pursue kb policy q.rest)

/-- The results of the task, then those of the choices. -/
def Plan.results (kb : HornBase) (policy : CyclePolicy) (p : Plan) : Results Context :=
  (p.task.elim .none fun t => pursue kb policy t.goals t.context).append
    (.concat (p.choices.map (Choice.results kb policy)))

theorem Plan.results_choice (q : Choice) (choices : List Choice) :
    Plan.results kb policy ⟨none, q :: choices⟩ =
      (q.results kb policy).append (Plan.results kb policy ⟨none, choices⟩) := rfl

theorem Plan.results_task (t : Task) (choices : List Choice) :
    Plan.results kb policy ⟨some t, choices⟩ =
      (pursue kb policy t.goals t.context).append (Plan.results kb policy ⟨none, choices⟩) := rfl

end Plans

/-! ## Rules -/

section Rules

/-- What becomes of unifying the renamed head of `h` with the goal. -/
def Unifies (c : Context) (goal : Term) (h : HornClause) (s : Option Subst) : Prop :=
  unify (renameClause h c.copies).1.1 (c.subst.apply goal) c.subst = s

/-- The goals that take the place of `g` when a rule with the given premises is applied. -/
def premiseGoals (depth : Nat) (g : Goal) (premises : List Term) : List (Nat × Goal) :=
  premises.map fun t => (depth, ⟨t, g.term :: g.ancestors⟩)

/-- The task that the rule `h` sets when it is applied to the goal of `q`, with the bindings `s`. -/
def Choice.taskOf (q : Choice) (h : HornClause) (s : Subst) : Task :=
  let copy := renameClause h q.context.copies
  ⟨premiseGoals q.depth q.goal copy.1.2 ++ q.rest, ⟨s, copy.2⟩⟩

variable {depth : Nat} {g : Goal} {rest : List (Nat × Goal)} {c : Context} {q : Choice} {untried : List HornClause}
  {body : List Term → Context → Results Context} {goal : Term} {h : HornClause} {s : Subst}

theorem Choice.map_snd_taskOf (q : Choice) (h : HornClause) (s : Subst) :
    (q.taskOf h s).goals.map Prod.snd =
      Branch.next ⟨q.goal, q.rest.map Prod.snd, q.context.subst⟩ (renameClause h q.context.copies).1.2 := by
  simp [Choice.taskOf, premiseGoals, Branch.next]

/-- The premises of a rule are proved before the goals after it. -/
theorem proveBody_bind_pursue (premises : List Term) (c : Context) :
    (proveBody (proveGoal kb policy depth (g.term :: g.ancestors)) premises c).bind (pursue kb policy rest) =
      pursue kb policy (premiseGoals depth g premises ++ rest) c := by
  induction premises generalizing c with
  | nil => exact Results.one_bind c _
  | cons t premises ih =>
    rw [proveBody, Results.bind_assoc]
    change _ = (proveGoal kb policy depth (g.term :: g.ancestors) t c).bind
      (pursue kb policy (premiseGoals depth g premises ++ rest))
    congr 1
    exact funext ih

theorem useRule_of_none (hu : Unifies c goal h none) : useRule body goal c h = .none := by
  rw [Unifies] at hu
  rw [useRule, hu]

theorem useRule_of_some (hu : Unifies c goal h (some s)) :
    useRule body goal c h = body (renameClause h c.copies).1.2 ⟨s, (renameClause h c.copies).2⟩ := by
  rw [Unifies] at hu
  rw [useRule, hu]

/-- No rule that is left applies. -/
theorem Choice.results_of_none (hnone : ∀ h ∈ q.untried, Unifies q.context q.goal.term h none) :
    q.results kb policy = .none := by
  unfold Choice.results
  dsimp only
  rw [Results.concat_of_none, Results.none_bind]
  intro r hr
  obtain ⟨h, hmem, rfl⟩ := List.mem_map.mp hr
  exact useRule_of_none (hnone h hmem)

/-- The first rule that applies comes before those after it. -/
theorem Choice.results_of_some {pre : List HornClause} (hq : q.untried = pre ++ h :: untried)
    (hnone : ∀ h ∈ pre, Unifies q.context q.goal.term h none) (hu : Unifies q.context q.goal.term h (some s)) :
    q.results kb policy = (pursue kb policy (q.taskOf h s).goals (q.taskOf h s).context).append
      ({ q with untried := untried }.results kb policy) := by
  have hpre : { q with untried := pre }.results kb policy = .none := Choice.results_of_none hnone
  unfold Choice.results at hpre ⊢
  dsimp only at hpre ⊢
  rw [hq, List.map_append, Results.concat_append, Results.append_bind, hpre, Results.none_append, List.map_cons,
    Results.concat_cons, Results.append_bind, useRule_of_some hu, proveBody_bind_pursue]
  rfl

end Rules

/-! ## Depth and cost -/

section Measures

/-- No goal of the plan is closer to its depth than `n`. -/
structure Plan.Deep (n : Nat) (p : Plan) : Prop where
  task : ∀ t, p.task = some t → ∀ e ∈ t.goals, n ≤ e.1
  choices : ∀ q ∈ p.choices, n ≤ q.depth ∧ ∀ e ∈ q.rest, n ≤ e.1

theorem Plan.Deep.mono {n k : Nat} {p : Plan} (h : p.Deep k) (hnk : n ≤ k) : p.Deep n where
  task t ht e he := Nat.le_trans hnk (h.task t ht e he)
  choices q hq := ⟨Nat.le_trans hnk (h.choices q hq).1, fun e he => Nat.le_trans hnk ((h.choices q hq).2 e he)⟩

theorem Plan.Deep.drop_task {n : Nat} {task : Option Task} {choices : List Choice}
    (h : Plan.Deep (n + 1) ⟨task, choices⟩) : Plan.Deep n ⟨none, choices⟩ :=
  ⟨nofun, (h.mono (Nat.le_succ n)).choices⟩

/-- The number of turns that a goal may take, if the goals after it may take `c` turns each time. -/
def goalCost (kb : HornBase) : Nat → Nat → Nat
  | 0, _ => 0
  | depth + 1, c => 2 + (kb.clauses.map fun h => 1 + (goalCost kb depth)^[h.premises.length] c).sum

/-- The number of turns that goals may take. -/
def goalsCost (kb : HornBase) (goals : List (Nat × Goal)) : Nat :=
  goals.foldr (fun e c => goalCost kb e.1 c) 0

/-- The number of turns that a choice may take. -/
def Choice.cost (kb : HornBase) (q : Choice) : Nat :=
  1 + (q.untried.map fun h => 1 + (goalCost kb q.depth)^[h.premises.length] (goalsCost kb q.rest)).sum

/-- The number of turns that a plan may take. -/
def Plan.cost (kb : HornBase) (p : Plan) : Nat :=
  (p.task.elim 0 fun t => goalsCost kb t.goals) + (p.choices.map (Choice.cost kb)).sum

theorem goalsCost_premiseGoals {depth : Nat} {g : Goal} {rest : List (Nat × Goal)} (premises : List Term) :
    goalsCost kb (premiseGoals depth g premises ++ rest) =
      (goalCost kb depth)^[premises.length] (goalsCost kb rest) := by
  induction premises with
  | nil => rfl
  | cons t premises ih =>
    rw [List.length_cons, Function.iterate_succ_apply', ← ih]
    rfl

theorem Choice.goalsCost_taskOf (q : Choice) (h : HornClause) (s : Subst) :
    goalsCost kb (q.taskOf h s).goals = (goalCost kb q.depth)^[h.premises.length] (goalsCost kb q.rest) := by
  rw [Choice.taskOf, goalsCost_premiseGoals, renameClause_eq, List.length_map]

end Measures

/-! ## Carrying a plan on -/

section Continues

/-- `p'` stands for the results of `p`; it takes a turn less, and its goals are at most one closer to their depth. -/
structure Continues (kb : HornBase) (policy : CyclePolicy) (p p' : Plan) : Prop where
  results_eq : p.results kb policy = p'.results kb policy
  cost_lt : p'.cost kb < p.cost kb
  deep : ∀ n, p.Deep (n + 1) → p'.Deep n

variable {depth : Nat} {g : Goal} {rest : List (Nat × Goal)} {c : Context} {choices : List Choice} {q : Choice}

/-- A goal that repeats no ancestor is a choice between all rules. -/
theorem continues_open (hcycle : cycle? c.subst g.ancestors g.term = none) :
    Continues kb policy ⟨some ⟨(depth + 1, g) :: rest, c⟩, choices⟩
      ⟨none, ⟨depth, g, rest, c, kb.clauses⟩ :: choices⟩ where
  results_eq := by
    rw [Plan.results_task, Plan.results_choice, pursue, proveGoal, hcycle]
    rfl
  cost_lt := by
    simp only [Plan.cost, Option.elim, goalsCost, List.foldr_cons, goalCost, Choice.cost, List.map_cons,
      List.sum_cons]
    omega
  deep n hd := by
    have hgoals := hd.task _ rfl
    refine ⟨nofun, List.forall_mem_cons.mpr ⟨⟨?_, fun e he => ?_⟩, hd.drop_task.choices⟩⟩
    · exact Nat.le_of_succ_le_succ (hgoals _ List.mem_cons_self)
    · exact Nat.le_of_succ_le (hgoals e (List.mem_cons_of_mem _ he))

/-- What is at hand when the selected goal repeats an ancestor. -/
theorem results_of_cycle {path : List Term} (hcycle : cycle? c.subst g.ancestors g.term = some path) :
    Plan.results kb policy ⟨some ⟨(depth + 1, g) :: rest, c⟩, choices⟩ =
      ((onCycle policy path).bind (pursue kb policy rest)).append (Plan.results kb policy ⟨none, choices⟩) := by
  rw [Plan.results_task, pursue, proveGoal, hcycle]

theorem continues_prune {path : List Term} (hcycle : cycle? c.subst g.ancestors g.term = some path) :
    Continues kb .prune ⟨some ⟨(depth + 1, g) :: rest, c⟩, choices⟩ ⟨none, choices⟩ where
  results_eq := results_of_cycle hcycle
  cost_lt := by
    simp only [Plan.cost, Option.elim, goalsCost, List.foldr_cons, goalCost]
    omega
  deep n hd := hd.drop_task

/-- A choice between rules that do not apply is none. -/
theorem continues_fail (hnone : ∀ h ∈ q.untried, Unifies q.context q.goal.term h none) :
    Continues kb policy ⟨none, q :: choices⟩ ⟨none, choices⟩ where
  results_eq := by
    rw [Plan.results_choice, Choice.results_of_none hnone]
    rfl
  cost_lt := by
    simp only [Plan.cost, Option.elim, Choice.cost, List.map_cons, List.sum_cons]
    omega
  deep n hd := ⟨nofun, (List.forall_mem_cons.mp hd.drop_task.choices).2⟩

/-- The first rule that applies sets the next task. -/
theorem continues_apply {pre untried : List HornClause} {h : HornClause} {s : Subst}
    (hq : q.untried = pre ++ h :: untried) (hnone : ∀ h ∈ pre, Unifies q.context q.goal.term h none)
    (hu : Unifies q.context q.goal.term h (some s)) :
    Continues kb policy ⟨none, q :: choices⟩ ⟨some (q.taskOf h s), { q with untried := untried } :: choices⟩ where
  results_eq := by
    rw [Plan.results_choice, Plan.results_task, Plan.results_choice, Choice.results_of_some hq hnone hu,
      Results.append_assoc]
  cost_lt := by
    simp only [Plan.cost, Option.elim, Choice.goalsCost_taskOf, Choice.cost, hq, List.map_cons, List.sum_cons,
      List.map_append, List.sum_append]
    omega
  deep n hd := by
    obtain ⟨hchoice, hchoices⟩ := List.forall_mem_cons.mp hd.drop_task.choices
    refine ⟨?_, List.forall_mem_cons.mpr ⟨hchoice, hchoices⟩⟩
    rintro _ ⟨⟩ e he
    rcases List.mem_append.mp he with he | he
    · obtain ⟨t, -, rfl⟩ := List.mem_map.mp he
      exact hchoice.1
    · exact hchoice.2 e he

end Continues

/-! ## The first plan -/

section Start

/-- The plan of a search at its start. -/
def startPlan (query : Term) (depth : Nat) : Plan :=
  ⟨some ⟨[(depth, ⟨query, []⟩)], ⟨.empty, 0⟩⟩, []⟩

theorem results_startPlan (query : Term) (depth : Nat) :
    (startPlan query depth).results kb policy = proveGoal kb policy depth [] query ⟨.empty, 0⟩ := by
  change ((proveGoal kb policy depth [] query ⟨.empty, 0⟩).bind Results.one).append .none = _
  rw [Results.append_none, Results.bind_one]

theorem deep_startPlan (query : Term) (depth : Nat) : (startPlan query depth).Deep depth where
  task := by
    rintro _ ⟨⟩ e he
    obtain rfl := List.mem_singleton.mp he
    exact Nat.le_refl depth
  choices := nofun

end Start

end Clausal.Procedure
