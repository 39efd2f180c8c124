import Clausal.Horn
import Clausal.Search.Limits
import Clausal.Unify

/-!
# Clausal.Search.Machine — backward search

Depth-first search for proofs of a goal from Horn clauses.  A goal is resolved against the clauses in their order;
a clause is renamed apart, its head unified with the goal, and its premises take the place of the goal, to be proved
from left to right.  The machine keeps the choice points still open on a stack, so that it can go on after an answer.

* `Machine`: the state of a search; `Machine.start` is the search for one goal.
* `Machine.step`: one turn, which opens the pending branch or resolves the goal of the last choice point.  It is
  `Machine.stepBy` with `unify`; that one leaves it open, and to a monad, how a head is unified with a goal.
* `Machine.run`: turns until there is an answer, an error or nothing left to try, as long as there is fuel.
-/

namespace Clausal

/-! ## State -/

/-- A goal together with the goals it descends from, innermost first. -/
structure Goal where
  term : Term
  ancestors : List Term
  deriving Repr

/-- Goals still to be proved under a substitution: the selected one and the rest. -/
structure Branch where
  goal : Goal
  rest : List Goal
  subst : Subst

/-- A branch whose selected goal has been resolved against some clauses, and the clauses not yet tried on it. -/
structure ChoicePoint where
  branch : Branch
  untried : List HornClause

/-- The state of a search. -/
structure Machine where
  /-- The open choice points, last one first. -/
  stack : List ChoicePoint
  /-- The branch to look at next, if a clause was just applied. -/
  pending : Option Branch
  /-- The number of clause heads tried. -/
  steps : Nat
  /-- The number of clauses renamed. -/
  renamings : Nat
  /-- The search is over. -/
  halted : Bool

/-- What the world says at one turn of a search. -/
structure Signals where
  /-- The search has been called off. -/
  cancelled : Bool
  /-- The time since the start of the search, in milliseconds. -/
  elapsedMs : Nat
  deriving Repr

/-- What a turn, or a run, comes to. -/
inductive Progress where
  /-- There is more to do. -/
  | running (m : Machine)
  /-- A proof was found. -/
  | answer (s : Subst) (m : Machine)
  /-- The search was stopped. -/
  | stopped (e : SolveError) (m : Machine)
  /-- Nothing is left to try. -/
  | finished (m : Machine)

namespace Machine

/-- The search for proofs of `query`. -/
def start (query : Term) : Machine where
  stack := []
  pending := some { goal := { term := query, ancestors := [] }, rest := [], subst := .empty }
  steps := 0
  renamings := 0
  halted := false

/-! ## Clauses -/

/-- The variables of a clause. -/
def clauseVariables (h : HornClause) : List String :=
  Distinct.union (· == ·) h.head.freeVars (h.body.flatMap Term.freeVars)

/-- A copy of a clause in which every variable `X` is `X_n`: its head and its premises. -/
def copyClause (h : HornClause) (n : Nat) : Term × List Term :=
  let vars := clauseVariables h
  let copy := Term.mapVars fun x => .var false (if vars.contains x then x ++ "_" ++ toString n else x)
  (copy h.head, h.premises.map copy)

/-- The clause to use next, and the number of the next renaming.  A clause without variables is used as it is. -/
def renameClause (h : HornClause) (renamings : Nat) : (Term × List Term) × Nat :=
  if (clauseVariables h).isEmpty then ((h.head, h.premises), renamings)
  else (copyClause h renamings, renamings + 1)

/-- A quick test that a head and a goal can unify: sign, symbol and number of arguments. -/
def mayMatch (head goal : Term) : Bool :=
  match head, goal with
  | .var .., _ => true
  | _, .var .. => true
  | .lit n a, .lit m b => n == m && a == b
  | .rel n a ts, .rel m b us => n == m && a == b && ts.length == us.length
  | .fn n a _, .fn m b _ => n == m && a == b
  | _, _ => false

/-- What comes of resolving a goal against a list of clauses; `steps` and `renamings` count on. -/
inductive Resolution where
  /-- A clause applies: its premises, the unifier, and the clauses after it. -/
  | applied (premises : List Term) (s : Subst) (untried : List HornClause) (steps renamings : Nat)
  /-- No clause applies. -/
  | failed (steps renamings : Nat)
  /-- There are steps for no more clauses. -/
  | stopped (limit steps renamings : Nat)

section Resolve

variable {μ : Type → Type} [Monad μ] (attempt : Term → Term → Subst → μ (Option Subst))

/-- Resolves `goal` against the first clause that applies.  Whether one applies is for `attempt` to say, which is asked to
unify the head of a copy with the goal. -/
@[specialize]
def resolveBy (limits : Limits) (goal : Term) (s : Subst) : List HornClause → Nat → Nat → μ Resolution
  | [], steps, renamings => pure (.failed steps renamings)
  | h :: untried, steps, renamings =>
    if !mayMatch h.head goal then resolveBy limits goal s untried steps renamings
    else
      match limits.maxSteps.filter (· < steps + 1) with
      | some limit => pure (.stopped limit (steps + 1) renamings)
      | none => do
        let copy := renameClause h renamings
        match ← attempt copy.1.1 goal s with
        | some s' => pure (.applied copy.1.2 s' untried (steps + 1) copy.2)
        | none => resolveBy limits goal s untried (steps + 1) copy.2

end Resolve

/-- Resolves `goal` against the first clause whose head unifies with it. -/
def resolve (limits : Limits) (goal : Term) (s : Subst) (clauses : List HornClause) (steps renamings : Nat) :
    Resolution :=
  resolveBy (μ := Id) unify limits goal s clauses steps renamings

theorem resolve_cons (limits : Limits) (goal : Term) (s : Subst) (h : HornClause) (untried : List HornClause)
    (steps renamings : Nat) :
    resolve limits goal s (h :: untried) steps renamings =
      if !mayMatch h.head goal then resolve limits goal s untried steps renamings
      else
        match limits.maxSteps.filter (· < steps + 1) with
        | some limit => .stopped limit (steps + 1) renamings
        | none =>
          let copy := renameClause h renamings
          match unify copy.1.1 goal s with
          | some s' => .applied copy.1.2 s' untried (steps + 1) copy.2
          | none => resolve limits goal s untried (steps + 1) copy.2 :=
  rfl

/-! ## Repeated goals -/

/-- The ancestors from the nearest one equal to `goal` on, outermost first, all taken under `s`. -/
def repeatedFrom (s : Subst) (goal : Term) : List Term → Option (List Term)
  | [] => none
  | a :: as =>
    if s.resolvesTo a goal then some [s.apply a] else (repeatedFrom s goal as).map fun path => path ++ [s.apply a]

/-- Whether the selected goal of a branch is to be searched: not below the depth limit, and not if it repeats an
ancestor. -/
def checkGoal (limits : Limits) (b : Branch) : Except SolveError Bool :=
  if b.goal.ancestors.isEmpty then .ok true
  else
    match limits.maxDepth.filter (· ≤ b.goal.ancestors.length) with
    | some limit => .error (.depthLimit limit)
    | none =>
      let goal := b.subst.apply b.goal.term
      match repeatedFrom b.subst goal b.goal.ancestors with
      | none => .ok true
      | some path =>
        match limits.cyclePolicy with
        | .error => .error (.cycle ((path ++ [goal]).map Term.render))
        | .prune => .ok false

/-! ## Turns -/

/-- The error that the world calls for, if any: calling off comes before the time. -/
def interruption (limits : Limits) (now : Signals) : Option SolveError :=
  if now.cancelled then some .cancelled
  else (limits.timeoutMs.filter (· < now.elapsedMs)).map .timeout

/-- The branch after a clause was applied to the goal of `b`: its premises come before the other goals. -/
def Branch.next (b : Branch) (premises : List Term) : List Goal :=
  let path := b.goal.term :: b.goal.ancestors
  premises.map (fun t => { term := t, ancestors := path }) ++ b.rest

/-- Opens the pending branch. -/
def openBranch (kb : HornBase) (limits : Limits) (m : Machine) (b : Branch) : Progress :=
  match checkGoal limits b with
  | .error e => .stopped e { m with pending := none, halted := true }
  | .ok true => .running { m with pending := none, stack := ⟨b, kb.clauses⟩ :: m.stack }
  | .ok false => .running { m with pending := none }

/-- What a turn comes to at which the goal of the branch `b` was resolved, below which is `stack`. -/
def Resolution.progress (m : Machine) (b : Branch) (stack : List ChoicePoint) : Resolution → Progress
  | .stopped limit steps renamings =>
    .stopped (.stepLimit limit) { m with stack := stack, steps := steps, renamings := renamings, halted := true }
  | .failed steps renamings => .running { m with stack := stack, steps := steps, renamings := renamings }
  | .applied premises s untried steps renamings =>
    let m' := { m with stack := ⟨b, untried⟩ :: stack, steps := steps, renamings := renamings }
    match Branch.next b premises with
    | [] => .answer s m'
    | goal :: rest => .running { m' with pending := some ⟨goal, rest, s⟩ }

section Step

variable {μ : Type → Type} [Monad μ] (attempt : Term → Term → Subst → μ (Option Subst))

/-- Resolves the goal of the choice point `p`, below which is `stack`, with the help of `attempt`. -/
@[specialize]
def resolvePointBy (limits : Limits) (m : Machine) (p : ChoicePoint) (stack : List ChoicePoint) : μ Progress := do
  let b := p.branch
  let r ← resolveBy attempt limits (b.subst.apply b.goal.term) b.subst p.untried m.steps m.renamings
  pure (r.progress m b stack)

/-- One turn of the search, at which `attempt` is asked to unify heads with goals. -/
@[specialize]
def stepBy (kb : HornBase) (limits : Limits) (now : Signals) (m : Machine) : μ Progress :=
  if m.halted then pure (.finished m)
  else
    match interruption limits now with
    | some e => pure (.stopped e { m with halted := true })
    | none =>
      match m.pending, m.stack with
      | some b, _ => pure (openBranch kb limits m b)
      | none, p :: stack => resolvePointBy attempt limits m p stack
      | none, [] => pure (.finished { m with halted := true })

end Step

/-- Resolves the goal of the choice point `p`, below which is `stack`. -/
def resolvePoint (limits : Limits) (m : Machine) (p : ChoicePoint) (stack : List ChoicePoint) : Progress :=
  resolvePointBy (μ := Id) unify limits m p stack

/-- One turn of the search. -/
def step (kb : HornBase) (limits : Limits) (now : Signals) (m : Machine) : Progress :=
  stepBy (μ := Id) unify kb limits now m

theorem resolvePoint_eq (limits : Limits) (m : Machine) (p : ChoicePoint) (stack : List ChoicePoint) :
    resolvePoint limits m p stack =
      (resolve limits (p.branch.subst.apply p.branch.goal.term) p.branch.subst p.untried m.steps m.renamings).progress
        m p.branch stack :=
  rfl

theorem step_eq (kb : HornBase) (limits : Limits) (now : Signals) (m : Machine) :
    step kb limits now m =
      if m.halted then .finished m
      else
        match interruption limits now with
        | some e => .stopped e { m with halted := true }
        | none =>
          match m.pending, m.stack with
          | some b, _ => openBranch kb limits m b
          | none, p :: stack => resolvePoint limits m p stack
          | none, [] => .finished { m with halted := true } :=
  rfl

/-- At most `fuel` turns, up to the first that ends in something other than more work. -/
def run (kb : HornBase) (limits : Limits) (now : Signals) : Nat → Machine → Progress
  | 0, m => .running m
  | fuel + 1, m =>
    match step kb limits now m with
    | .running m' => run kb limits now fuel m'
    | result => result

end Machine

end Clausal
