import Clausal.Proofs.Search.Plan
import Clausal.Proofs.Search.Variant

/-!
# Clausal.Proofs.Search.Refinement — the machine does what the procedure says

The machine works on a stack of choice points; the procedure calls itself.  The pending branch of a machine and its
choice points are a plan of the procedure, up to the numbers of the copies.  A turn carries this plan on, or takes the
first result off the sequence that the plan stands for and yields it.

* `Next`, `Responds`: the answers of a search to one request for a result, and to several in succession.
* `Mirrors`: the plan of a machine.
* `Mirrors.turn`: what one turn does to the plan.
* `Mirrors.yields_of_run`, `Mirrors.exists_next`: what a request does to it.  A deep plan is not used up by few turns,
  and a plan whose cost is bounded is not worked on for ever.
* `search_refines_procedure`: the main statement.
-/

namespace Clausal.Machine

open Procedure

variable {kb : HornBase} {policy : CyclePolicy} {query : Term}

/-! ## Requests -/

section Requests

variable {limits : Limits} {now : Signals} {m m' m'' : Machine} {r r' : Option (Except SolveError Subst)}

/-- What a run gives to the one who asked for a result, and the state it leaves. -/
def returned : Progress → Option (Option (Except SolveError Subst) × Machine)
  | .running _ => none
  | .answer s m => some (some (.ok s), m)
  | .stopped e m => some (some (.error e), m)
  | .finished m => some (none, m)

/-- Asked for a result, the search in the state `m` gives `r` and comes to the state `m'`. -/
def Next (kb : HornBase) (limits : Limits) (now : Signals) (m : Machine) (r : Option (Except SolveError Subst))
    (m' : Machine) : Prop :=
  ∃ fuel, returned (run kb limits now fuel m) = some (r, m')

/-- Asked for results again and again, the search in the state `m` gives `r` for the one with number `i`; `world j` is
what the world says during the request with number `j`. -/
inductive Responds (kb : HornBase) (limits : Limits) :
    (Nat → Signals) → Machine → Nat → Option (Except SolveError Subst) → Prop where
  | first {world : Nat → Signals} {m m' : Machine} {r : Option (Except SolveError Subst)} :
    Next kb limits (world 0) m r m' → Responds kb limits world m 0 r
  | later {world : Nat → Signals} {m m' : Machine} {i : Nat} {r r' : Option (Except SolveError Subst)} :
    Next kb limits (world 0) m r m' → Responds kb limits (fun j => world (j + 1)) m' i r' →
    Responds kb limits world m (i + 1) r'

theorem run_of_running {fuel : Nat} (h : step kb limits now m = .running m') :
    run kb limits now (fuel + 1) m = run kb limits now fuel m' := by
  rw [run, h]

theorem run_of_returned {fuel : Nat} {a : Option (Except SolveError Subst) × Machine}
    (h : returned (step kb limits now m) = some a) : run kb limits now (fuel + 1) m = step kb limits now m := by
  unfold run
  split
  · next m' hstep =>
    rw [hstep] at h
    cases h
  · rfl

theorem Next.of_running (hstep : step kb limits now m = .running m') (h : Next kb limits now m' r m'') :
    Next kb limits now m r m'' := by
  obtain ⟨fuel, hrun⟩ := h
  exact ⟨fuel + 1, by rwa [run_of_running hstep]⟩

theorem Next.of_returned (h : returned (step kb limits now m) = some (r, m')) : Next kb limits now m r m' :=
  ⟨1, by rwa [run_of_returned h]⟩

/-- More turns do not change what a run has come to. -/
theorem returned_run_le {fuel fuel' : Nat} {a : Option (Except SolveError Subst) × Machine} (hle : fuel ≤ fuel')
    (h : returned (run kb limits now fuel m) = some a) : returned (run kb limits now fuel' m) = some a := by
  induction fuel generalizing fuel' m with
  | zero => cases h
  | succ fuel ih =>
    obtain ⟨fuel', rfl⟩ : ∃ f, fuel' = f + 1 := ⟨fuel' - 1, by omega⟩
    cases hstep : step kb limits now m with
    | running m' =>
      rw [run_of_running hstep] at h ⊢
      exact ih (by omega) h
    | answer s m' | stopped e m' | finished m' =>
      rw [run, hstep] at h ⊢
      exact h

theorem Next.unique (h : Next kb limits now m r m') (h' : Next kb limits now m r' m'') : r' = r ∧ m'' = m' := by
  obtain ⟨fuel, hrun⟩ := h
  obtain ⟨fuel', hrun'⟩ := h'
  have hmax := returned_run_le (Nat.le_max_left fuel fuel') hrun
  rw [returned_run_le (Nat.le_max_right fuel fuel') hrun'] at hmax
  cases hmax
  exact ⟨rfl, rfl⟩

theorem Responds.unique {world : Nat → Signals} {i : Nat} (h : Responds kb limits world m i r)
    (h' : Responds kb limits world m i r') : r' = r := by
  induction h with
  | first hn =>
    cases h' with
    | first hn' => exact (hn.unique hn').1
  | later hn _ ih =>
    cases h' with
    | later hn' h' =>
      obtain ⟨-, rfl⟩ := hn.unique hn'
      exact ih h'

end Requests

/-! ## Plans of machines -/

section Mirrors

/-- The goals of a branch are those of a task, up to the numbers of the copies. -/
def BranchMirrors (kb : HornBase) (query : Term) (n : Nat) (b : Branch) (t : Task) : Prop :=
  ∃ π, Variant kb query n (Branch.goals b) b.subst (t.goals.map Prod.snd) t.context π

/-- So are those of a choice point and of a choice, and the same rules are left. -/
structure PointMirrors (kb : HornBase) (query : Term) (n : Nat) (p : ChoicePoint) (q : Choice) : Prop where
  untried_eq : p.untried = q.untried
  untried_subset : q.untried ⊆ kb.clauses
  variant : ∃ π, Variant kb query n (Branch.goals p.branch) p.branch.subst (q.goal :: q.rest.map Prod.snd) q.context π

/-- What the machine `m` has still to do. -/
inductive Mirrors (kb : HornBase) (query : Term) (m : Machine) : Plan → Prop where
  | halted : m.halted = true → Mirrors kb query m ⟨none, []⟩
  | going {task : Option Task} {choices : List Choice} : m.halted = false →
    Option.Rel (BranchMirrors kb query m.renamings) m.pending task →
    List.Forall₂ (PointMirrors kb query m.renamings) m.stack choices → Mirrors kb query m ⟨task, choices⟩

theorem PointMirrors.mono {n k : Nat} {p : ChoicePoint} {q : Choice} (h : PointMirrors kb query n p q)
    (hnk : n ≤ k) : PointMirrors kb query k p q :=
  { h with variant := h.variant.imp fun _ hv => hv.mono hnk }

/-- Fewer rules are left. -/
theorem PointMirrors.later {n : Nat} {b : Branch} {pre untried : List HornClause} {h : HornClause} {q : Choice}
    (hp : PointMirrors kb query n ⟨b, pre ++ h :: untried⟩ q) :
    PointMirrors kb query n ⟨b, untried⟩ { q with untried := untried } := by
  refine ⟨rfl, fun r hr => hp.untried_subset ?_, hp.variant⟩
  rw [← hp.untried_eq]
  exact List.mem_append_right pre (List.mem_cons_of_mem h hr)

theorem mirrors_start (hadm : Admissible kb query) (depth : Nat) :
    Mirrors kb query (.start query) (startPlan query depth) :=
  .going rfl (.some ⟨_, variant_start hadm⟩) .nil

/-- A result of the search is a result of the procedure, and an error is an error, up to the numbers of the copies. -/
inductive Agrees (kb : HornBase) (query : Term) :
    Option (Except SolveError Subst) → Option (Except (List Term) Context) → Prop where
  | exhausted : Agrees kb query none none
  | result {s : Subst} {c : Context} (π : Equiv.Perm Nat) :
    s.apply query = (c.subst.apply query).relabel (renumber kb π) → Agrees kb query (some (.ok s)) (some (.ok c))
  | cycle (path : List Term) (π : Equiv.Perm Nat) :
    Agrees kb query (some (.error (.cycle ((path.map (Term.relabel (renumber kb π))).map Term.render))))
      (some (.error path))

end Mirrors

/-! ## One turn -/

section Turn

/-- The results of `p` begin with `r`, and `p'` is what is left of it. -/
structure Yields (kb : HornBase) (policy : CyclePolicy) (query : Term) (p : Plan)
    (r : Option (Except SolveError Subst)) (p' : Plan) : Prop where
  first : ∃ o, (p.results kb policy).response 0 = some o ∧ Agrees kb query r o
  later : ∀ i, (p.results kb policy).response (i + 1) = (p'.results kb policy).response i

/-- What a turn does to the plan of a machine. -/
inductive AfterTurn (kb : HornBase) (policy : CyclePolicy) (query : Term) (p : Plan) : Progress → Prop where
  | running {m : Machine} {p' : Plan} : Mirrors kb query m p' → Continues kb policy p p' →
    AfterTurn kb policy query p (.running m)
  | returned {result : Progress} {r : Option (Except SolveError Subst)} {m : Machine} {p' : Plan} :
    returned result = some (r, m) → Mirrors kb query m p' → Yields kb policy query p r p' →
    (∀ n, p.Deep (n + 1) → p'.Deep n) → AfterTurn kb policy query p result

/-- The plan has come to a goal that it may not open. -/
def Blocked (kb : HornBase) (policy : CyclePolicy) (p : Plan) : Prop :=
  p.results kb policy = .unknown ∧ ¬ p.Deep 1

/-- No bounds on depth, steps and time. -/
def unlimited (policy : CyclePolicy) : Limits :=
  ⟨none, none, none, policy⟩

variable {m : Machine} {n k : Nat} {choices : List Choice}

theorem deep_empty (n : Nat) : Plan.Deep n ⟨none, []⟩ where
  task := nofun
  choices := nofun

theorem yields_empty : Yields kb policy query ⟨none, []⟩ none ⟨none, []⟩ :=
  ⟨⟨none, rfl, .exhausted⟩, fun _ => rfl⟩

/-- With no goal left, where the proof has come to is a result. -/
theorem yields_result {t : Task} (ht : t.goals = []) {r : Option (Except SolveError Subst)}
    (h : Agrees kb query r (some (.ok t.context))) : Yields kb policy query ⟨some t, choices⟩ r ⟨none, choices⟩ := by
  obtain ⟨goals, c⟩ := t
  obtain rfl : goals = [] := ht
  exact ⟨⟨some (.ok c), rfl, h⟩, fun _ => rfl⟩

theorem yields_cycle {depth : Nat} {g : Goal} {rest : List (Nat × Goal)} {c : Context} {path : List Term}
    (hcycle : cycle? c.subst g.ancestors g.term = some path) (π : Equiv.Perm Nat) :
    Yields kb .error query ⟨some ⟨(depth + 1, g) :: rest, c⟩, choices⟩
      (some (.error (.cycle ((path.map (Term.relabel (renumber kb π))).map Term.render)))) ⟨none, []⟩ := by
  refine ⟨⟨some (.error path), ?_, .cycle path π⟩, fun i => ?_⟩
  · rw [results_of_cycle hcycle]
    rfl
  · rw [results_of_cycle hcycle]
    rfl

theorem Yields.of_continues {p p' p'' : Plan} {r : Option (Except SolveError Subst)}
    (h : Yields kb policy query p' r p'') (hc : Continues kb policy p p') : Yields kb policy query p r p'' := by
  refine ⟨?_, fun i => ?_⟩
  · rw [hc.results_eq]
    exact h.first
  · rw [hc.results_eq]
    exact h.later i

theorem checkGoal_unlimited (b : Branch) :
    checkGoal (unlimited policy) b =
      match cycle? b.subst b.goal.ancestors b.goal.term, policy with
      | none, _ => .ok true
      | some path, .error => .error (.cycle (path.map Term.render))
      | some _, .prune => .ok false := by
  obtain ⟨⟨goal, ancestors⟩, rest, s⟩ := b
  cases ancestors with
  | nil => rfl
  | cons a ancestors =>
    rw [cycle?_eq]
    unfold checkGoal
    dsimp only [unlimited, List.isEmpty_cons]
    cases repeatedFrom s (s.apply goal) (a :: ancestors) with
    | none => rfl
    | some path => cases policy <;> rfl

/-- The turn that looks at the pending branch. -/
theorem afterTurn_openBranch {b : Branch} {t : Task} (hgoing : m.halted = false)
    (hb : BranchMirrors kb query m.renamings b t)
    (hstack : List.Forall₂ (PointMirrors kb query m.renamings) m.stack choices) :
    Blocked kb policy ⟨some t, choices⟩ ∨
      AfterTurn kb policy query ⟨some t, choices⟩ (openBranch kb (unlimited policy) m b) := by
  obtain ⟨goals, c⟩ := t
  obtain ⟨π, hv⟩ := hb
  obtain - | ⟨⟨depth, g⟩, rest⟩ := goals
  · cases hv.goals_eq
  cases depth with
  | zero =>
    refine .inl ⟨rfl, fun hdeep => ?_⟩
    exact absurd (hdeep.task _ rfl _ List.mem_cons_self) (by simp)
  | succ depth =>
    refine .inr ?_
    rw [openBranch, checkGoal_unlimited, hv.cycle?_eq]
    cases hcycle : cycle? c.subst g.ancestors g.term with
    | none =>
      have hpoint : PointMirrors kb query m.renamings ⟨b, kb.clauses⟩ ⟨depth, g, rest, c, kb.clauses⟩ :=
        ⟨rfl, fun h hh => hh, π, hv⟩
      exact .running (.going hgoing .none (.cons hpoint hstack)) (continues_open hcycle)
    | some path =>
      cases policy with
      | prune => exact .running (.going hgoing .none hstack) (continues_prune hcycle)
      | error => exact .returned rfl (.halted rfl) (yields_cycle hcycle π) fun n _ => deep_empty n

theorem resolve_unlimited_ne (goal : Term) (s : Subst) (clauses : List HornClause) (steps n : Nat)
    (limit steps' n' : Nat) : resolve (unlimited policy) goal s clauses steps n ≠ .stopped limit steps' n' := by
  induction clauses generalizing steps n with
  | nil => nofun
  | cons h untried ih =>
    rw [resolve_cons]
    split
    · exact ih steps n
    · dsimp only [unlimited, Option.filter_none]
      split
      · nofun
      · exact ih _ _

theorem clashes_copyTerm (h : HornClause) (n : Nat) (t u : Term) :
    Unify.clashes (copyTerm h n t) u = !mayMatch t u := by
  change Unify.clashes (t.relabel (copyName h n)) u = _
  cases t <;> cases u <;> simp [Unify.clashes, mayMatch]

/-- The quick test passes over clauses that do not unify. -/
theorem Skipped.exists_unify_eq_none {goal : Term} {s : Subst} {h : HornClause} (hs : s.Acyclic)
    (hskip : Skipped n goal s h) : ∃ k, n ≤ k ∧ unify (renameClause h k).1.1 goal s = none := by
  rcases hskip with hmatch | hunify
  · refine ⟨n, Nat.le_refl n, ?_⟩
    have hclash : Unify.clashes (renameClause h n).1.1 goal = true := by
      rw [renameClause_eq, clashes_copyTerm, hmatch]
      rfl
    exact (Unify.evaluates_unify hs _ _).unique (.clash hclash)
  · exact hunify

/-- A clause that the machine passes over is one that the procedure cannot use. -/
theorem PointMirrors.skipped (hadm : Admissible kb query) {p : ChoicePoint} {q : Choice}
    (hp : PointMirrors kb query n p q) {h : HornClause} (hh : h ∈ p.untried)
    (hskip : Skipped n (p.branch.subst.apply p.branch.goal.term) p.branch.subst h) :
    Unifies q.context q.goal.term h none := by
  obtain ⟨π, hv⟩ := hp.variant
  obtain ⟨k, hk, hu⟩ := hskip.exists_unify_eq_none (hv.renamed.acyclic hv.acyclic)
  rw [hp.untried_eq] at hh
  exact hv.resolve_none hadm (hp.untried_subset hh) hk hu

/-- The clause that the machine applies is the first that the procedure can use, and sets the same task. -/
theorem PointMirrors.applied (hadm : Admissible kb query) {b : Branch} {pre untried : List HornClause}
    {h : HornClause} {q : Choice} (hp : PointMirrors kb query n ⟨b, pre ++ h :: untried⟩ q) {s : Subst} {n' : Nat}
    (ha : Applied (b.subst.apply b.goal.term) b.subst n pre h k s n') :
    ∃ s' π', Continues kb policy ⟨none, q :: choices⟩
        ⟨some (q.taskOf h s'), { q with untried := untried } :: choices⟩ ∧
      Variant kb query n' (Branch.next b (renameClause h k).1.2) s ((q.taskOf h s').goals.map Prod.snd)
        (q.taskOf h s').context π' := by
  obtain ⟨π, hv⟩ := hp.variant
  have hmem : h ∈ kb.clauses := by
    refine hp.untried_subset ?_
    rw [← hp.untried_eq]
    exact List.mem_append_right pre List.mem_cons_self
  obtain ⟨s', π', hu, hv'⟩ := hv.resolve_some hadm hmem ha.le ha.unify
  refine ⟨s', π', continues_apply hp.untried_eq.symm (fun r hr => ?_) hu, ?_⟩
  · exact hp.skipped hadm (List.mem_append_left _ hr) (ha.skipped r hr)
  · rw [ha.next, q.map_snd_taskOf]
    exact hv'

/-- The turn that resolves the goal of the last choice point. -/
theorem afterTurn_resolvePoint (hadm : Admissible kb query) {p : ChoicePoint} {q : Choice} {stack : List ChoicePoint}
    (hgoing : m.halted = false) (hpend : m.pending = none) (hp : PointMirrors kb query m.renamings p q)
    (hstack : List.Forall₂ (PointMirrors kb query m.renamings) stack choices) :
    AfterTurn kb policy query ⟨none, q :: choices⟩ (resolvePoint (unlimited policy) m p stack) := by
  obtain ⟨b, clauses⟩ := p
  have hspec := resolve_spec (unlimited policy) (b.subst.apply b.goal.term) b.subst clauses m.steps m.renamings
  have hidle : ∀ n, Option.Rel (BranchMirrors kb query n) m.pending none := fun n => hpend ▸ .none
  rw [resolvePoint_eq]
  unfold Resolution.progress
  split
  · next heq => exact absurd heq (resolve_unlimited_ne _ _ _ _ _ _ _ _)
  · next steps n heq =>
    rw [heq] at hspec
    obtain ⟨hle, hskip⟩ := hspec
    refine .running (.going hgoing (hidle n) (hstack.imp fun _ _ h => h.mono hle)) (continues_fail fun h hh => ?_)
    rw [← hp.untried_eq] at hh
    exact hp.skipped hadm hh (hskip h hh)
  · next premises s untried steps n heq =>
    rw [heq] at hspec
    obtain ⟨pre, h, k, rfl, rfl, ha⟩ := hspec
    obtain ⟨s', π', hcont, hv⟩ := hp.applied hadm ha
    have hle : m.renamings ≤ n := by
      rw [ha.next]
      exact Nat.le_trans ha.le (le_renameClause h k)
    have hpoints := List.Forall₂.cons (hp.later.mono hle) (hstack.imp fun _ _ h => h.mono hle)
    split
    · next hnext =>
      -- no goal is left, so the task that the rule sets is a result
      rw [hnext] at hv
      have hresult : Agrees kb query (some (.ok s)) (some (.ok (q.taskOf h s').context)) :=
        .result π' (hv.apply_query hadm)
      have hyields : Yields kb policy query ⟨some (q.taskOf h s'), { q with untried := untried } :: choices⟩
          (some (.ok s)) ⟨none, { q with untried := untried } :: choices⟩ := by
        have hnil : (q.taskOf h s').goals = [] := by simpa using hv.goals_eq.symm
        exact yields_result hnil hresult
      exact .returned rfl (.going hgoing (hidle n) hpoints) (hyields.of_continues hcont)
        fun n hd => ⟨nofun, (hcont.deep n hd).choices⟩
    · next goal rest hnext =>
      rw [hnext] at hv
      have hbranch : BranchMirrors kb query n ⟨goal, rest, s⟩ (q.taskOf h s') := ⟨π', hv⟩
      exact .running (.going hgoing (.some hbranch) hpoints) hcont

/-- What one turn does to the plan of a machine. -/
theorem Mirrors.turn (hadm : Admissible kb query) {p : Plan} (hm : Mirrors kb query m p) {now : Signals}
    (hnow : now.cancelled = false) :
    Blocked kb policy p ∨ AfterTurn kb policy query p (step kb (unlimited policy) now m) := by
  cases hm with
  | halted hhalted =>
    rw [step_eq, if_pos hhalted]
    exact .inr (.returned rfl (.halted hhalted) yields_empty fun n _ => deep_empty n)
  | going hgoing hpend hstack =>
    have hquiet : interruption (unlimited policy) now = none := by simp [interruption, unlimited, hnow]
    rw [step_eq, if_neg (by simp [hgoing]), hquiet]
    dsimp only
    cases hb : m.pending with
    | some b =>
      rw [hb] at hpend
      cases hpend with
      | some hmirrors => exact afterTurn_openBranch hgoing hmirrors hstack
    | none =>
      rw [hb] at hpend
      cases hpend
      cases hs : m.stack with
      | nil =>
        rw [hs] at hstack
        cases hstack
        exact .inr (.returned rfl (.halted rfl) yields_empty fun n _ => deep_empty n)
      | cons point stack =>
        rw [hs] at hstack
        cases hstack with
        | cons hpoint hrest => exact .inr (afterTurn_resolvePoint hadm hgoing hb hpoint hrest)

end Turn

/-! ## Requests and their answers -/

section Run

variable {m m' : Machine} {p : Plan} {now : Signals} {r : Option (Except SolveError Subst)}

/-- A run that ends within the depth of the plan yields its first result. -/
theorem Mirrors.yields_of_run (hadm : Admissible kb query) (hnow : now.cancelled = false) {fuel n : Nat}
    (hm : Mirrors kb query m p) (hdeep : p.Deep (n + fuel))
    (hrun : returned (run kb (unlimited policy) now fuel m) = some (r, m')) :
    ∃ p', Mirrors kb query m' p' ∧ Yields kb policy query p r p' ∧ p'.Deep n := by
  induction fuel generalizing m p with
  | zero => cases hrun
  | succ fuel ih =>
    rcases hm.turn hadm hnow with ⟨-, hshallow⟩ | hturn
    · exact absurd (hdeep.mono (by omega)) hshallow
    · generalize hstep : step kb (unlimited policy) now m = result at hturn
      cases hturn with
      | running hm₁ hc =>
        rw [run_of_running hstep] at hrun
        obtain ⟨p', hm', hy, hd⟩ := ih hm₁ (hc.deep _ hdeep) hrun
        exact ⟨p', hm', hy.of_continues hc, hd⟩
      | returned hret hm₁ hy hd =>
        rw [← hstep] at hret
        rw [run_of_returned hret, hret] at hrun
        cases hrun
        exact ⟨_, hm₁, hy, (hd (n + fuel) hdeep).mono (Nat.le_add_right n fuel)⟩

/-- If the first result of the plan is known, a request for it is answered. -/
theorem Mirrors.exists_next (hadm : Admissible kb query) (hnow : now.cancelled = false) (hm : Mirrors kb query m p)
    (hknown : (p.results kb policy).response 0 ≠ none) :
    ∃ r m' p', Next kb (unlimited policy) now m r m' ∧ Mirrors kb query m' p' ∧ Yields kb policy query p r p' := by
  induction hcost : p.cost kb using Nat.strong_induction_on generalizing m p with
  | _ cost ih =>
    rcases hm.turn hadm hnow with ⟨hunknown, -⟩ | hturn
    · rw [hunknown] at hknown
      exact absurd rfl hknown
    · generalize hstep : step kb (unlimited policy) now m = result at hturn
      cases hturn with
      | running hm₁ hc =>
        rw [hc.results_eq] at hknown
        obtain ⟨r, m', p', hnext, hm', hy⟩ := ih _ (hcost ▸ hc.cost_lt) hm₁ hknown rfl
        exact ⟨r, m', p', hnext.of_running hstep, hm', hy.of_continues hc⟩
      | returned hret hm₁ hy _ =>
        rw [← hstep] at hret
        exact ⟨_, _, _, .of_returned hret, hm₁, hy⟩

/-- What the plan says about the result with number `i`, the search says when it is asked. -/
theorem Mirrors.exists_responds (hadm : Admissible kb query) {world : Nat → Signals}
    (hworld : ∀ j, (world j).cancelled = false) (hm : Mirrors kb query m p) {i : Nat}
    {o : Option (Except (List Term) Context)} (ho : (p.results kb policy).response i = some o) :
    ∃ r, Responds kb (unlimited policy) world m i r ∧ Agrees kb query r o := by
  obtain ⟨r, m', p', hnext, hm', hy⟩ := hm.exists_next hadm (hworld 0) (Results.response_zero_ne_none ho)
  induction i generalizing m p m' p' r world with
  | zero =>
    obtain ⟨o', ho', hagrees⟩ := hy.first
    rw [ho'] at ho
    cases ho
    exact ⟨r, .first hnext, hagrees⟩
  | succ i ih =>
    rw [hy.later] at ho
    have hworld' : ∀ j, (world (j + 1)).cancelled = false := fun j => hworld (j + 1)
    obtain ⟨r₁, m₁, p₁, hnext₁, hm₁, hy₁⟩ := hm'.exists_next hadm (hworld' 0) (Results.response_zero_ne_none ho)
    obtain ⟨r', hresponds, hagrees⟩ := ih hworld' hm' ho r₁ m₁ p₁ hnext₁ hm₁ hy₁
    exact ⟨r', .later hnext hresponds, hagrees⟩

/-- What the search says when it is asked, every plan that is deep enough says. -/
theorem Responds.exists_response (hadm : Admissible kb query) {world : Nat → Signals}
    (hworld : ∀ j, (world j).cancelled = false) {i : Nat} (h : Responds kb (unlimited policy) world m i r) :
    ∃ n, ∀ p, Mirrors kb query m p → p.Deep n →
      ∃ o, (p.results kb policy).response i = some o ∧ Agrees kb query r o := by
  induction h with
  | first hnext =>
    obtain ⟨fuel, hrun⟩ := hnext
    refine ⟨0 + fuel, fun p hm hdeep => ?_⟩
    obtain ⟨_, -, hy, -⟩ := hm.yields_of_run hadm (hworld 0) hdeep hrun
    exact hy.first
  | later hnext _ ih =>
    obtain ⟨fuel, hrun⟩ := hnext
    obtain ⟨n, hn⟩ := ih fun j => hworld (j + 1)
    refine ⟨n + fuel, fun p hm hdeep => ?_⟩
    obtain ⟨p', hm', hy, hdeep'⟩ := hm.yields_of_run hadm (hworld 0) hdeep hrun
    obtain ⟨o, ho, hagrees⟩ := hn p' hm' hdeep'
    exact ⟨o, by rw [hy.later, ho], hagrees⟩

end Run

/-! ## The refinement -/

section Refinement

/-- **The machine enumerates what the procedure generates.**  Without limits, and if nothing calls it off, a search
answers every request for a result as the recursive procedure does, item by item and up to the numbers of the copies:
with the query under the same bindings, with the same error, or with the end of the sequence.  A request that the one
never answers is one that the other never answers. -/
theorem search_refines_procedure (hadm : Admissible kb query) (policy : CyclePolicy) (world : Nat → Signals)
    (hworld : ∀ j, (world j).cancelled = false) (i : Nat) :
    (∀ r, Responds kb (unlimited policy) world (.start query) i r →
      ∃ o, (∀ o', Generates kb policy query i o' ↔ o' = o) ∧ Agrees kb query r o) ∧
    ∀ o, Generates kb policy query i o →
      ∃ r, (∀ r', Responds kb (unlimited policy) world (.start query) i r' ↔ r' = r) ∧ Agrees kb query r o := by
  constructor
  · intro r hr
    obtain ⟨n, hn⟩ := hr.exists_response hadm hworld
    obtain ⟨o, ho, hagrees⟩ := hn (startPlan query n) (mirrors_start hadm n) (deep_startPlan query n)
    rw [results_startPlan] at ho
    refine ⟨o, fun o' => ⟨fun ho' => generates_unique ⟨n, ho⟩ ho', ?_⟩, hagrees⟩
    rintro rfl
    exact ⟨n, ho⟩
  · rintro o ⟨depth, ho⟩
    rw [← results_startPlan] at ho
    obtain ⟨r, hr, hagrees⟩ := (mirrors_start hadm depth).exists_responds hadm hworld ho
    refine ⟨r, fun r' => ⟨fun hr' => hr.unique hr', ?_⟩, hagrees⟩
    rintro rfl
    exact hr

/-- `p(X) ← r(X)`, `p(f(Y))` and `p(Z) ← p(Z)`. -/
def numberedBase : HornBase :=
  ⟨[⟨⟨false, [.rel false "p" [.var false "X"], .rel true "r" [.var false "X"]]⟩, .rel false "p" [.var false "X"], rfl⟩,
    ⟨⟨false, [.rel false "p" [.fn false "f" (.var false "Y")]]⟩, .rel false "p" [.fn false "f" (.var false "Y")], rfl⟩,
    ⟨⟨false, [.rel false "p" [.var false "Z"], .rel true "p" [.var false "Z"]]⟩, .rel false "p" [.var false "Z"], rfl⟩]⟩

/-- `p(W)`. -/
def numberedQuery : Term :=
  .rel false "p" [.var false "W"]

/-- The machine has made a copy of the first rule, in vain, when it makes one of the second; the procedure has not.  So
the one finds `p(f(Y_1))` and the other `p(f(Y_0))`.  The third rule leads both back to the query. -/
theorem numbered_search_refines :
    Admissible numberedBase numberedQuery ∧
    ∃ s c, Responds numberedBase (unlimited .error) (fun _ => ⟨false, 0⟩) (.start numberedQuery) 0 (some (.ok s)) ∧
      (∀ o, Generates numberedBase .error numberedQuery 0 o ↔ o = some (.ok c)) ∧
      Agrees numberedBase numberedQuery (some (.ok s)) (some (.ok c)) ∧
      s.apply numberedQuery = .rel false "p" [.fn false "f" (.var false "Y_1")] ∧
      c.subst.apply numberedQuery = .rel false "p" [.fn false "f" (.var false "Y_0")] ∧
      ∃ r, (∀ r', Responds numberedBase (unlimited .error) (fun _ => ⟨false, 0⟩) (.start numberedQuery) 1 r' ↔ r' = r) ∧
        Agrees numberedBase numberedQuery r (some (.error [numberedQuery, numberedQuery])) := by
  have hadm : Admissible numberedBase numberedQuery := by
    refine ⟨by decide, fun h _ v _ n hq => ?_⟩
    have hname : suffixed v n = "W" := List.mem_singleton.mp hq
    have hmem := underscore_mem_suffixed v n
    rw [hname] at hmem
    revert hmem
    decide
  have hrefines := search_refines_procedure hadm .error (fun _ => ⟨false, 0⟩) fun _ => rfl
  obtain ⟨s, m, hrun, hs⟩ : ∃ s m,
      returned (run numberedBase (unlimited .error) ⟨false, 0⟩ 5 (.start numberedQuery)) = some (some (.ok s), m) ∧
        s.apply numberedQuery = .rel false "p" [.fn false "f" (.var false "Y_1")] :=
    ⟨_, _, rfl, rfl⟩
  obtain ⟨c, hgenerated, hc⟩ : ∃ c : Context,
      (proveGoal numberedBase .error 2 [] numberedQuery ⟨.empty, 0⟩).response 0 = some (some (.ok c)) ∧
        c.subst.apply numberedQuery = .rel false "p" [.fn false "f" (.var false "Y_0")] :=
    ⟨_, rfl, rfl⟩
  have hresponds : Responds numberedBase (unlimited .error) (fun _ => ⟨false, 0⟩) (.start numberedQuery) 0
      (some (.ok s)) := .first ⟨5, hrun⟩
  obtain ⟨o, hunique, hagrees⟩ := (hrefines 0).1 _ hresponds
  obtain rfl := (hunique _).mp ⟨2, hgenerated⟩
  exact ⟨hadm, s, c, hresponds, hunique, hagrees, hs, hc, (hrefines 1).2 _ ⟨2, rfl⟩⟩

end Refinement

end Clausal.Machine
