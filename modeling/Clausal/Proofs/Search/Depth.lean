import Clausal.Proofs.Search.Truncation

/-!
# Clausal.Proofs.Search.Depth — what a bound on the depth stops

A goal is selected when the machine looks at the branch that it leads.  It is then that a bound on the depth stops the
search, at the first goal that has as many ancestors as the bound says.  A goal without ancestors is never stopped.

* `after`, `Selects`: the states that a search comes to if nothing disturbs it, and the goals that it selects there.
* `exists_response?_iff`: the responses of a search are what these states return.
* `checkGoal_depthOnly`: the bound does nothing else than to stop at goals that are too deep.  So up to the first of
  them the search is the one without a bound: `step_depthOnly_of_shallow`, `exists_deep_iff`.
* `depth_limit_exact`: the main statement.
-/

namespace Clausal.Machine

variable {kb : HornBase} {limits : Limits} {policy : CyclePolicy} {query : Term} {n : Nat} {m m' : Machine} {g : Goal}

/-! ## Undisturbed searches -/

section Undisturbed

/-- The world has nothing to say. -/
def quiet : Signals :=
  ⟨false, 0⟩

/-- The state that a search comes to after the given number of turns, if nothing disturbs it. -/
def after (kb : HornBase) (limits : Limits) (turns : Nat) (m : Machine) : Machine :=
  afterUnder kb limits (fun _ => quiet) turns m

theorem after_zero (m : Machine) : after kb limits 0 m = m :=
  rfl

theorem after_succ (turns : Nat) (m : Machine) :
    after kb limits (turns + 1) m = after kb limits turns (step kb limits quiet m).machine :=
  rfl

theorem after_add (j k : Nat) (m : Machine) : after kb limits (j + k) m = after kb limits k (after kb limits j m) := by
  induction j generalizing m with
  | zero => rw [Nat.zero_add, after_zero]
  | succ j ih => rw [Nat.succ_add, after_succ, ih, after_succ]

theorem after_of_halted (hm : m.halted = true) (k : Nat) : after kb limits k m = m := by
  induction k with
  | zero => rfl
  | succ k ih => rw [after_succ, step_of_halted hm, Progress.machine, ih]

/-- Without a bound on the time, what the world says makes no difference, unless it calls the search off. -/
theorem step_eq_quiet (htime : limits.timeoutMs = none) {now : Signals} (hnow : now.cancelled = false) (m : Machine) :
    step kb limits now m = step kb limits quiet m := by
  rw [step_eq, step_eq, interruption_eq_none htime hnow, interruption_eq_none htime rfl]

theorem runUnder_eq_quiet (htime : limits.timeoutMs = none) {world : Nat → Signals}
    (hworld : ∀ k, (world k).cancelled = false) (fuel : Nat) (m : Machine) :
    runUnder kb limits world fuel m = runUnder kb limits (fun _ => quiet) fuel m := by
  induction fuel generalizing m world with
  | zero => rfl
  | succ fuel ih =>
    rw [runUnder, runUnder, step_eq_quiet htime (hworld 0)]
    cases step kb limits quiet m with
    | running m' => exact ih (fun k => hworld (k + 1)) m'
    | answer s m' | stopped e m' | finished m' => rfl

theorem response?_eq_quiet (htime : limits.timeoutMs = none) {world : Nat → Nat → Signals}
    (hworld : ∀ j k, (world j k).cancelled = false) (fuel i : Nat) (m : Machine) :
    response? kb limits fuel world m i = response? kb limits fuel (fun _ _ => quiet) m i := by
  induction i generalizing m world with
  | zero => rw [response?, response?, runUnder_eq_quiet htime (hworld 0)]
  | succ i ih =>
    rw [response?, response?, runUnder_eq_quiet htime (hworld 0)]
    exact congrArg _ (funext fun a => ih (fun j => hworld (j + 1)) a.2)

variable {fuel i : Nat} {r : Option (Except SolveError Subst)}

theorem machine_of_returned {p : Progress} (h : returned p = some (r, m')) : p.machine = m' := by
  cases p with
  | running m => cases h
  | answer s m | stopped e m | finished m =>
    cases h
    rfl

/-- What a run returns is what one of its turns returns. -/
theorem exists_turn_of_returned (h : returned (runUnder kb limits (fun _ => quiet) fuel m) = some (r, m')) :
    ∃ k, returned (step kb limits quiet (after kb limits k m)) = some (r, m') := by
  induction fuel generalizing m with
  | zero => cases h
  | succ fuel ih =>
    rcases returned_runUnder_succ h with ⟨m₁, hstep, h⟩ | h
    · obtain ⟨k, hk⟩ := ih h
      refine ⟨k + 1, ?_⟩
      rw [after_succ, hstep]
      exact hk
    · exact ⟨0, h⟩

theorem returned_runUnder_quiet {a : Option (Except SolveError Subst) × Machine}
    (h : returned (step kb limits quiet m) = some a) (fuel : Nat) :
    returned (runUnder kb limits (fun _ => quiet) (fuel + 1) m) = some a := by
  have hrun : runUnder kb limits (fun _ => quiet) (fuel + 1) m = step kb limits quiet m := runUnder_of_returned h
  rw [hrun, h]

/-- A turn more before the first response. -/
theorem response?_of_running (hstep : step kb limits quiet m = .running m')
    (h : response? kb limits fuel (fun _ _ => quiet) m' i = some r) :
    response? kb limits (fuel + 1) (fun _ _ => quiet) m i = some r := by
  obtain ⟨r₀, m₀, hret⟩ := exists_returned_of_response? h
  have hrun : runUnder kb limits (fun _ => quiet) (fuel + 1) m = runUnder kb limits (fun _ => quiet) fuel m' :=
    runUnder_of_running hstep
  have hret' : returned (runUnder kb limits (fun _ => quiet) (fuel + 1) m) = some (r₀, m₀) := by rw [hrun, hret]
  cases i with
  | zero =>
    rw [response?_zero hret] at h
    rw [response?_zero hret', h]
  | succ i =>
    rw [response?_succ hret] at h
    rw [response?_succ hret']
    exact response?_le (Nat.le_succ fuel) h

/-- The responses of a search are what its turns return. -/
theorem exists_response?_iff :
    (∃ fuel i, response? kb limits fuel (fun _ _ => quiet) m i = some r) ↔
      ∃ k m', returned (step kb limits quiet (after kb limits k m)) = some (r, m') := by
  constructor
  · rintro ⟨fuel, i, h⟩
    induction i generalizing m with
    | zero =>
      obtain ⟨r₀, m', hret⟩ := exists_returned_of_response? h
      rw [response?_zero hret] at h
      cases h
      obtain ⟨k, hk⟩ := exists_turn_of_returned hret
      exact ⟨k, m', hk⟩
    | succ i ih =>
      obtain ⟨r₀, m₁, hret⟩ := exists_returned_of_response? h
      rw [response?_succ hret] at h
      obtain ⟨j, hj⟩ := exists_turn_of_returned hret
      obtain ⟨k, m', hk⟩ := ih h
      refine ⟨j + (1 + k), m', ?_⟩
      rw [after_add, after_add, after_succ, after_zero, machine_of_returned hj]
      exact hk
  · rintro ⟨k, m', h⟩
    induction k generalizing m with
    | zero => exact ⟨1, 0, response?_zero (returned_runUnder_quiet h 0)⟩
    | succ k ih =>
      obtain ⟨fuel, i, hi⟩ := ih h
      cases hret : returned (step kb limits quiet m) with
      | none =>
        cases hstep : step kb limits quiet m with
        | running m₁ =>
          rw [hstep] at hi
          exact ⟨fuel + 1, i, response?_of_running hstep hi⟩
        | answer s m₁ | stopped e m₁ | finished m₁ =>
          rw [hstep] at hret
          cases hret
      | some a =>
        obtain ⟨r₁, m₁⟩ := a
        rw [machine_of_returned hret] at hi
        refine ⟨fuel + 1, i + 1, ?_⟩
        rw [response?_succ (returned_runUnder_quiet hret fuel)]
        exact response?_le (Nat.le_succ fuel) hi

/-- The errors among them are those at which a turn stops. -/
theorem exists_error_iff {e : SolveError} :
    (∃ fuel i, response? kb limits fuel (fun _ _ => quiet) m i = some (some (.error e))) ↔
      ∃ k m', step kb limits quiet (after kb limits k m) = .stopped e m' := by
  rw [exists_response?_iff]
  refine exists_congr fun k => exists_congr fun m' => ?_
  cases step kb limits quiet (after kb limits k m) <;> simp [returned]

end Undisturbed

/-! ## Selected goals -/

section Selected

/-- The goal that the next turn looks at. -/
def selected? (m : Machine) : Option Goal :=
  if m.halted then none else m.pending.map (·.goal)

/-- The search in the state `m` selects the goal `g` at some turn. -/
def Selects (kb : HornBase) (limits : Limits) (m : Machine) (g : Goal) : Prop :=
  ∃ turns, (after kb limits turns m).selected? = some g

theorem exists_branch_of_selected? (h : m.selected? = some g) :
    m.halted = false ∧ ∃ b, m.pending = some b ∧ b.goal = g := by
  unfold selected? at h
  cases hm : m.halted with
  | true => simp [hm] at h
  | false =>
    rw [hm] at h
    exact ⟨rfl, Option.map_eq_some_iff.mp h⟩

/-- A search that is over after some turns selects what it has selected by then. -/
theorem Selects.exists_lt (h : Selects kb limits m g) (turns : Nat) (hm : (after kb limits turns m).halted = true) :
    ∃ k < turns, (after kb limits k m).selected? = some g := by
  obtain ⟨k, hk⟩ := h
  refine ⟨k, ?_, hk⟩
  by_contra hle
  obtain ⟨j, rfl⟩ := Nat.exists_eq_add_of_le (Nat.le_of_not_lt hle)
  rw [after_add, after_of_halted hm] at hk
  simp [selected?, hm] at hk

/-- Two searches that take the same turns, unless they have come to a goal with `P`, both come to one or neither
does. -/
theorem Selects.transfer {c c' : Limits} {P : Goal → Prop}
    (hsame : ∀ m : Machine, (∃ g, m.selected? = some g ∧ P g) ∨ step kb c quiet m = step kb c' quiet m)
    (h : Selects kb c m g) (hg : P g) : ∃ g', Selects kb c' m g' ∧ P g' := by
  obtain ⟨k, hk⟩ := h
  induction k generalizing m with
  | zero => exact ⟨g, ⟨0, hk⟩, hg⟩
  | succ k ih =>
    rcases hsame m with ⟨g', hnow, hg'⟩ | hstep
    · exact ⟨g', ⟨0, hnow⟩, hg'⟩
    · rw [after_succ, hstep] at hk
      obtain ⟨g', ⟨j, hj⟩, hg'⟩ := ih hk
      exact ⟨g', ⟨j + 1, hj⟩, hg'⟩

end Selected

/-! ## A bound on the depth -/

section Depth

/-- A bound on the depth, and no other. -/
def depthOnly (n : Nat) (policy : CyclePolicy) : Limits :=
  ⟨some n, none, none, policy⟩

theorem loosens_unlimited (n : Nat) (policy : CyclePolicy) : Loosens (unlimited policy) (depthOnly n policy) :=
  ⟨rfl, nofun, nofun, rfl, rfl⟩

/-- A goal that has as many ancestors as the bound says is not looked at any further, nor is any that has more of them;
a goal without ancestors has always leave. -/
theorem checkGoal_depthOnly (b : Branch) :
    checkGoal (depthOnly n policy) b =
      if max n 1 ≤ b.goal.ancestors.length then .error (.depthLimit n) else checkGoal (unlimited policy) b := by
  unfold checkGoal
  cases hanc : b.goal.ancestors with
  | nil =>
    have hlt : ¬ max n 1 ≤ ([] : List Term).length := by
      rw [List.length_nil]
      omega
    rw [if_neg hlt]
    rfl
  | cons a as =>
    by_cases hdeep : n ≤ as.length + 1
    · have hmax : max n 1 ≤ (a :: as).length := by
        rw [List.length_cons]
        omega
      rw [if_pos hmax]
      simp [depthOnly, Option.filter, hdeep]
    · have hmax : ¬ max n 1 ≤ (a :: as).length := by
        rw [List.length_cons]
        omega
      rw [if_neg hmax]
      simp [depthOnly, unlimited, Option.filter, hdeep]

/-- Resolving a goal depends on the bound on steps only. -/
theorem resolve_depthOnly (goal : Term) (s : Subst) (clauses : List HornClause) (steps k : Nat) :
    resolve (depthOnly n policy) goal s clauses steps k = resolve (unlimited policy) goal s clauses steps k := by
  induction clauses generalizing steps k with
  | nil => rfl
  | cons h untried ih =>
    rw [resolve_cons, resolve_cons]
    cases mayMatch h.head goal with
    | false => exact ih steps k
    | true =>
      dsimp only [Bool.not_true, depthOnly, unlimited, Option.filter_none]
      cases unify (renameClause h k).1.1 goal s with
      | some s' => rfl
      | none => exact ih _ _

/-- A goal that is too deep stops the search. -/
theorem step_depthOnly_of_deep (hsel : m.selected? = some g) (hdeep : max n 1 ≤ g.ancestors.length) :
    step kb (depthOnly n policy) quiet m = .stopped (.depthLimit n) { m with pending := none, halted := true } := by
  obtain ⟨hgoing, b, hb, rfl⟩ := exists_branch_of_selected? hsel
  rw [step_eq, hgoing, hb]
  change openBranch kb (depthOnly n policy) m b = _
  rw [openBranch, checkGoal_depthOnly, if_pos hdeep]

/-- Otherwise the bound does not show. -/
theorem step_depthOnly_of_shallow (h : ∀ g, m.selected? = some g → g.ancestors.length < max n 1) :
    step kb (depthOnly n policy) quiet m = step kb (unlimited policy) quiet m := by
  rw [step_eq, step_eq]
  cases hm : m.halted with
  | true => rfl
  | false =>
    cases hpend : m.pending with
    | some b =>
      have hsel : m.selected? = some b.goal := by simp [selected?, hm, hpend]
      change openBranch kb (depthOnly n policy) m b = openBranch kb (unlimited policy) m b
      rw [openBranch, openBranch, checkGoal_depthOnly, if_neg (Nat.not_le_of_lt (h b.goal hsel))]
    | none =>
      cases hstack : m.stack with
      | nil => rfl
      | cons p stack =>
        change resolvePoint (depthOnly n policy) m p stack = resolvePoint (unlimited policy) m p stack
        rw [resolvePoint_eq, resolvePoint_eq, resolve_depthOnly]

/-- The search has come to a goal that is too deep, or it takes the turn that it takes without a bound. -/
theorem deep_or_step_eq (kb : HornBase) (n : Nat) (policy : CyclePolicy) (m : Machine) :
    (∃ g, m.selected? = some g ∧ max n 1 ≤ g.ancestors.length) ∨
      step kb (depthOnly n policy) quiet m = step kb (unlimited policy) quiet m := by
  by_cases hdeep : ∃ g, m.selected? = some g ∧ max n 1 ≤ g.ancestors.length
  · exact .inl hdeep
  · exact .inr (step_depthOnly_of_shallow fun g hg => Nat.lt_of_not_le fun hle => hdeep ⟨g, hg, hle⟩)

theorem not_isBound_of_checkGoal {b : Branch} {e : SolveError} (h : checkGoal (unlimited policy) b = .error e) :
    ¬ IsBound e := by
  rw [checkGoal_unlimited] at h
  split at h
  · cases h
  · cases h
    exact id
  · cases h

/-- A search without bounds stops at none. -/
theorem not_isBound_of_step {e : SolveError} (h : step kb (unlimited policy) quiet m = .stopped e m') :
    ¬ IsBound e := by
  rcases cause_of_stopped h with he | ⟨b, -, he⟩ | ⟨limit, goal, s, clauses, steps, k, steps', k', hstop, -⟩
  · rw [interruption_eq_none rfl rfl] at he
    cases he
  · exact not_isBound_of_checkGoal he
  · exact absurd hstop (resolve_unlimited_ne _ _ _ _ _ _ _ _)

/-- A turn at which a bound stops the search is one at which it has come to a goal that is too deep. -/
theorem exists_deep_of_isBound {e : SolveError} (h : step kb (depthOnly n policy) quiet m = .stopped e m')
    (he : IsBound e) : ∃ g, m.selected? = some g ∧ max n 1 ≤ g.ancestors.length := by
  rcases deep_or_step_eq kb n policy m with hdeep | hstep
  · exact hdeep
  · rw [hstep] at h
    exact absurd he (not_isBound_of_step h)

/-- The bound makes no difference to whether there is a goal that is too deep. -/
theorem exists_deep_iff :
    (∃ g, Selects kb (depthOnly n policy) m g ∧ max n 1 ≤ g.ancestors.length) ↔
      ∃ g, Selects kb (unlimited policy) m g ∧ max n 1 ≤ g.ancestors.length := by
  constructor
  · rintro ⟨g, hg, hdeep⟩
    exact hg.transfer (deep_or_step_eq kb n policy) hdeep
  · rintro ⟨g, hg, hdeep⟩
    exact hg.transfer (fun m => (deep_or_step_eq kb n policy m).imp_right Eq.symm) hdeep

/-- The search stops at the bound just if it comes to a goal that is too deep. -/
theorem exists_depthLimit_iff :
    (∃ fuel i, response? kb (depthOnly n policy) fuel (fun _ _ => quiet) m i =
      some (some (.error (.depthLimit n)))) ↔
      ∃ g, Selects kb (depthOnly n policy) m g ∧ max n 1 ≤ g.ancestors.length := by
  rw [exists_error_iff]
  constructor
  · rintro ⟨k, m', h⟩
    obtain ⟨g, hsel, hdeep⟩ := exists_deep_of_isBound h trivial
    exact ⟨g, ⟨k, hsel⟩, hdeep⟩
  · rintro ⟨g, ⟨k, hsel⟩, hdeep⟩
    exact ⟨k, _, step_depthOnly_of_deep hsel hdeep⟩

/-- The responses are those of the search without a bound just if that search comes to no goal that is too deep. -/
theorem responses_eq_iff :
    (∀ fuel i, response? kb (depthOnly n policy) fuel (fun _ _ => quiet) m i =
      response? kb (unlimited policy) fuel (fun _ _ => quiet) m i) ↔
      ∀ g, Selects kb (unlimited policy) m g → g.ancestors.length < max n 1 := by
  constructor
  · intro hsame g hg
    by_contra hdeep
    -- then the bound stops the one search, and nothing can stop the other
    obtain ⟨fuel, i, hi⟩ := exists_depthLimit_iff.mpr (exists_deep_iff.mpr ⟨g, hg, Nat.le_of_not_lt hdeep⟩)
    rw [hsame] at hi
    obtain ⟨k, m', hk⟩ := exists_error_iff.mp ⟨fuel, i, hi⟩
    exact not_isBound_of_step hk trivial
  · intro hshallow fuel i
    refine response?_eq_of_truncated (loosens_unlimited n policy) (fun _ _ => rfl) (fun _ _ => rfl) ?_
    intro j _ e hj he
    obtain ⟨k, m', hk⟩ := exists_error_iff.mp ⟨fuel, j, hj⟩
    obtain ⟨g, hsel, hdeep⟩ := exists_deep_of_isBound hk he
    obtain ⟨g', hg', hdeep'⟩ := exists_deep_iff.mp ⟨g, ⟨k, hsel⟩, hdeep⟩
    exact absurd hdeep' (Nat.not_le_of_lt (hshallow g' hg'))

/-- **What a bound on the depth stops.**  A search with the bound `n` on the depth and no other, that is not called off,
yields the error that this depth is exceeded just if it selects a goal with at least `n` ancestors, and with one at
least; and it responds as the search without a bound just if that search selects no such goal. -/
theorem depth_limit_exact (kb : HornBase) (query : Term) (policy : CyclePolicy) (n : Nat)
    (world : Nat → Nat → Signals) (hworld : ∀ j k, (world j k).cancelled = false) :
    ((∃ fuel i, response? kb (depthOnly n policy) fuel world (.start query) i =
      some (some (.error (.depthLimit n)))) ↔
      ∃ g, Selects kb (depthOnly n policy) (.start query) g ∧ max n 1 ≤ g.ancestors.length) ∧
    ((∀ fuel i, response? kb (depthOnly n policy) fuel world (.start query) i =
      response? kb (unlimited policy) fuel world (.start query) i) ↔
      ∀ g, Selects kb (unlimited policy) (.start query) g → g.ancestors.length < max n 1) := by
  have hdepth : ∀ fuel i, response? kb (depthOnly n policy) fuel world (.start query) i =
      response? kb (depthOnly n policy) fuel (fun _ _ => quiet) (.start query) i :=
    fun fuel i => response?_eq_quiet rfl hworld fuel i _
  have hfree : ∀ fuel i, response? kb (unlimited policy) fuel world (.start query) i =
      response? kb (unlimited policy) fuel (fun _ _ => quiet) (.start query) i :=
    fun fuel i => response?_eq_quiet rfl hworld fuel i _
  simp only [hdepth, hfree]
  exact ⟨exists_depthLimit_iff, responses_eq_iff⟩

/-- `up ← low` and `low`. -/
def stairBase : HornBase :=
  ⟨[⟨⟨false, [.const "up", .lit true "low"]⟩, .const "up", rfl⟩,
    ⟨⟨false, [.const "low"]⟩, .const "low", rfl⟩]⟩

/-- The goal `low` has one ancestor: the bound 1 stops it, and the bound 2 does not show. -/
theorem stairBase_depth_limits :
    (∃ g, Selects stairBase (depthOnly 1 .error) (.start (.const "up")) g ∧ 1 ≤ g.ancestors.length) ∧
    ∀ fuel i, response? stairBase (depthOnly 2 .error) fuel (fun _ _ => quiet) (.start (.const "up")) i =
      response? stairBase (unlimited .error) fuel (fun _ _ => quiet) (.start (.const "up")) i := by
  constructor
  · exact (depth_limit_exact stairBase (.const "up") .error 1 (fun _ _ => quiet) fun _ _ => rfl).1.mp ⟨3, 0, rfl⟩
  · refine (depth_limit_exact stairBase (.const "up") .error 2 (fun _ _ => quiet) fun _ _ => rfl).2.mpr fun g hg => ?_
    obtain ⟨k, hk, hsel⟩ := hg.exists_lt 7 rfl
    have hall : ∀ k < 7, ((after stairBase (unlimited .error) k (.start (.const "up"))).selected?).all
        (·.ancestors.length < 2) = true := by decide
    simpa [hsel] using hall k hk

/-- The search for `up` selects no goal with more than one ancestor, with the bound 1 or without a bound, and `up` has
a proof; yet the first response under the bound 1 is that this depth is exceeded. -/
theorem depth_limit_within_bound :
    (∀ g, Selects stairBase (depthOnly 1 .error) (.start (.const "up")) g → g.ancestors.length ≤ 1) ∧
    (∀ g, Selects stairBase (unlimited .error) (.start (.const "up")) g → g.ancestors.length ≤ 1) ∧
    (∃ s, response? stairBase (unlimited .error) 4 (fun _ _ => quiet) (.start (.const "up")) 0 = some (some (.ok s))) ∧
    response? stairBase (depthOnly 1 .error) 3 (fun _ _ => quiet) (.start (.const "up")) 0 =
      some (some (.error (.depthLimit 1))) := by
  refine ⟨fun g hg => ?_, fun g hg => ?_, ⟨_, rfl⟩, rfl⟩
  · obtain ⟨k, hk, hsel⟩ := hg.exists_lt 3 rfl
    have hall : ∀ k < 3, ((after stairBase (depthOnly 1 .error) k (.start (.const "up"))).selected?).all
        (·.ancestors.length ≤ 1) = true := by decide
    simpa [hsel] using hall k hk
  · obtain ⟨k, hk, hsel⟩ := hg.exists_lt 7 rfl
    have hall : ∀ k < 7, ((after stairBase (unlimited .error) k (.start (.const "up"))).selected?).all
        (·.ancestors.length ≤ 1) = true := by decide
    simpa [hsel] using hall k hk

end Depth

end Clausal.Machine
