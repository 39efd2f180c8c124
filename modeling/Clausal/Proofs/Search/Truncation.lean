import Clausal.Proofs.Search.Attempts
import Clausal.Proofs.Search.Requests

/-!
# Clausal.Proofs.Search.Truncation — limits only truncate

Two searches for one query under limits of which one allows more than the other take the same turns, up to the first
turn at which the tighter limits stop the one.

* `Loosens c' c`: the limits `c'` allow what `c` allows; the policy on repeated goals is the same.
* `Truncated r r'`: a turn or a run comes to the same under both, or a bound has stopped the first; `truncated_step`,
  `truncated_runUnder`.
* `response?_eq_of_truncated`: the responses are the same as long as no bound is hit.
* `limits_only_truncate`: the main statement.
-/

namespace Clausal.Machine

variable {kb : HornBase} {query : Term} {c c' : Limits} {m : Machine}

/-! ## Looser limits -/

section Limits

/-- The bound `a` is at most `b`; `none` is no bound. -/
def Tighter (a b : Option Nat) : Prop :=
  ∀ n, b = some n → ∃ k, a = some k ∧ k ≤ n

/-- `c'` is at least as permissive as `c`, and neither bounds the time. -/
structure Loosens (c' c : Limits) : Prop where
  policy : c'.cyclePolicy = c.cyclePolicy
  depth : Tighter c.maxDepth c'.maxDepth
  steps : Tighter c.maxSteps c'.maxSteps
  untimed : c.timeoutMs = none
  untimed' : c'.timeoutMs = none

/-- The search went deeper than it may, or took too many steps. -/
def IsBound : SolveError → Prop
  | .depthLimit _ | .stepLimit _ => True
  | .timeout _ | .cancelled | .cycle _ => False

/-- What the tighter bound does not stop, the looser one does not. -/
theorem Tighter.filter_eq_none {a b : Option Nat} (h : Tighter a b) {p : Nat → Bool}
    (hp : ∀ k n, k ≤ n → p n = true → p k = true) (ha : a.filter p = none) : b.filter p = none := by
  cases b with
  | none => rfl
  | some n =>
    obtain ⟨k, rfl, hkn⟩ := h n rfl
    have hk : p k = false := by simpa [Option.filter] using ha
    cases hn : p n with
    | false => simp [Option.filter, hn]
    | true =>
      rw [hp k n hkn hn] at hk
      cases hk

end Limits

/-! ## One turn -/

section Turn

/-- `r'` is `r`, unless a bound has stopped `r`. -/
def Truncated (r r' : Progress) : Prop :=
  r = r' ∨ ∃ e m, r = .stopped e m ∧ IsBound e

theorem resolve_truncated (h : Loosens c' c) (goal : Term) (s : Subst) (clauses : List HornClause) (steps n : Nat) :
    resolve c goal s clauses steps n = resolve c' goal s clauses steps n ∨
      ∃ limit steps' n', resolve c goal s clauses steps n = .stopped limit steps' n' := by
  induction clauses generalizing steps n with
  | nil => exact .inl rfl
  | cons clause untried ih =>
    rw [resolve_cons, resolve_cons]
    cases mayMatch clause.head goal with
    | false => exact ih steps n
    | true =>
      dsimp only [Bool.not_true]
      cases hc : c.maxSteps.filter (· < steps + 1) with
      | some limit => exact .inr ⟨limit, steps + 1, n, rfl⟩
      | none =>
        have hc' : c'.maxSteps.filter (· < steps + 1) = none := by
          refine h.steps.filter_eq_none (fun k n hkn hn => ?_) hc
          simp only [decide_eq_true_eq] at hn ⊢
          omega
        rw [hc']
        cases unify (renameClause clause n).1.1 goal s with
        | some s' => exact .inl rfl
        | none => exact ih _ _

theorem checkGoal_truncated (h : Loosens c' c) (b : Branch) :
    checkGoal c b = checkGoal c' b ∨ ∃ limit, checkGoal c b = .error (.depthLimit limit) := by
  rw [checkGoal, checkGoal]
  cases b.goal.ancestors.isEmpty with
  | true => exact .inl rfl
  | false =>
    cases hc : c.maxDepth.filter (· ≤ b.goal.ancestors.length) with
    | some limit => exact .inr ⟨limit, rfl⟩
    | none =>
      have hc' : c'.maxDepth.filter (· ≤ b.goal.ancestors.length) = none := by
        refine h.depth.filter_eq_none (fun k n hkn hn => ?_) hc
        simp only [decide_eq_true_eq] at hn ⊢
        omega
      rw [hc', h.policy]
      exact .inl rfl

/-- A turn comes to the same under looser limits, unless a bound stops it. -/
theorem truncated_step (kb : HornBase) (h : Loosens c' c) {now now' : Signals} (hnow : now.cancelled = false)
    (hnow' : now'.cancelled = false) (m : Machine) : Truncated (step kb c now m) (step kb c' now' m) := by
  rw [step_eq, step_eq, interruption_eq_none h.untimed hnow, interruption_eq_none h.untimed' hnow']
  cases m.halted with
  | true => exact .inl rfl
  | false =>
    cases m.pending with
    | some b =>
      dsimp only
      rw [openBranch, openBranch]
      rcases checkGoal_truncated h b with heq | ⟨limit, hstop⟩
      · rw [heq]
        exact .inl rfl
      · rw [hstop]
        exact .inr ⟨_, _, rfl, trivial⟩
    | none =>
      cases m.stack with
      | nil => exact .inl rfl
      | cons p stack =>
        dsimp only
        rw [resolvePoint_eq, resolvePoint_eq]
        rcases resolve_truncated h (p.branch.subst.apply p.branch.goal.term) p.branch.subst p.untried m.steps
          m.renamings with heq | ⟨limit, steps, n, hstop⟩
        · rw [heq]
          exact .inl rfl
        · rw [hstop]
          exact .inr ⟨_, _, rfl, trivial⟩

end Turn

/-! ## Runs and responses -/

section Responses

/-- So does a run. -/
theorem truncated_runUnder (h : Loosens c' c) {w w' : Nat → Signals} (hw : ∀ k, (w k).cancelled = false)
    (hw' : ∀ k, (w' k).cancelled = false) (fuel : Nat) (m : Machine) :
    Truncated (runUnder kb c w fuel m) (runUnder kb c' w' fuel m) := by
  induction fuel generalizing m w w' with
  | zero => exact .inl rfl
  | succ fuel ih =>
    rw [runUnder, runUnder]
    rcases truncated_step kb h (hw 0) (hw' 0) m with heq | ⟨e, m', hstop, he⟩
    · rw [heq]
      cases step kb c' (w' 0) m with
      | running m' => exact ih (fun k => hw (k + 1)) (fun k => hw' (k + 1)) m'
      | answer s m' | stopped e m' | finished m' => exact .inl rfl
    · rw [hstop]
      exact .inr ⟨e, m', rfl, he⟩

variable {world world' : Nat → Nat → Signals} {fuel i : Nat}

/-- If the first response is not that a bound was hit, the first run is the same under looser limits. -/
theorem runUnder_eq_of_truncated (h : Loosens c' c) (hw : ∀ k, (world 0 k).cancelled = false)
    (hw' : ∀ k, (world' 0 k).cancelled = false)
    (hfree : ∀ e, response? kb c fuel world m 0 = some (some (.error e)) → ¬ IsBound e) :
    runUnder kb c (world 0) fuel m = runUnder kb c' (world' 0) fuel m := by
  rcases truncated_runUnder h hw hw' fuel m with heq | ⟨e, m', hstop, he⟩
  · exact heq
  · have hret : returned (runUnder kb c (world 0) fuel m) = some (some (.error e), m') := by
      rw [hstop]
      rfl
    exact absurd he (hfree e (response?_zero hret))

/-- As long as no bound is hit, the responses are the same under looser limits. -/
theorem response?_eq_of_truncated (h : Loosens c' c) (hw : ∀ j k, (world j k).cancelled = false)
    (hw' : ∀ j k, (world' j k).cancelled = false)
    (hfree : ∀ j ≤ i, ∀ e, response? kb c fuel world m j = some (some (.error e)) → ¬ IsBound e) :
    response? kb c fuel world m i = response? kb c' fuel world' m i := by
  induction i generalizing m world world' with
  | zero => rw [response?, response?, runUnder_eq_of_truncated h (hw 0) (hw' 0) (hfree 0 (Nat.le_refl 0))]
  | succ i ih =>
    have hrun := runUnder_eq_of_truncated h (hw 0) (hw' 0) (hfree 0 (Nat.zero_le _))
    cases hret : returned (runUnder kb c (world 0) fuel m) with
    | none =>
      rw [response?, response?, ← hrun, hret]
      rfl
    | some a =>
      have hret' : returned (runUnder kb c' (world' 0) fuel m) = some (a.1, a.2) := by rw [← hrun, hret]
      rw [response?_succ hret, response?_succ hret']
      refine ih (fun j => hw (j + 1)) (fun j => hw' (j + 1)) fun j hj e he => ?_
      exact hfree (j + 1) (Nat.succ_le_succ hj) e (by rw [response?_succ hret, he])

/-- What is an answer is the same answer under looser limits, and so are the responses before it. -/
theorem exists_same_answer (h : Loosens c' c) (hw : ∀ j k, (world j k).cancelled = false)
    (hw' : ∀ j k, (world' j k).cancelled = false) {s : Subst}
    (hs : response? kb c fuel world m i = some (some (.ok s))) {j : Nat} (hj : j ≤ i) :
    ∃ s', response? kb c fuel world m j = some (some (.ok s')) ∧
      response? kb c' fuel world' m j = some (some (.ok s')) := by
  have hsame : response? kb c fuel world m j = response? kb c' fuel world' m j := by
    -- up to an answer there is no error at all
    refine response?_eq_of_truncated h hw hw' fun k hk e he => ?_
    obtain ⟨s', hs'⟩ := exists_answer_of_le hs (Nat.le_trans hk hj)
    rw [hs'] at he
    cases he
  obtain ⟨s', hs'⟩ := exists_answer_of_le hs hj
  exact ⟨s', hs', by rw [← hsame, hs']⟩

/-- A search that has come to its end without hitting a bound hits none, however many turns each request may take. -/
theorem not_isBound_of_end {n : Nat} (hend : response? kb c fuel world m n = some none)
    (hfree : ∀ j < n, ∀ e, response? kb c fuel world m j = some (some (.error e)) → ¬ IsBound e) {fuel' : Nat}
    {e : SolveError} (he : response? kb c fuel' world m i = some (some (.error e))) : ¬ IsBound e := by
  have hmax := response?_le (Nat.le_max_right fuel fuel') he
  have hi : i < n := by
    by_contra hge
    rw [response?_of_end (response?_le (Nat.le_max_left fuel fuel') hend) (Nat.le_of_not_lt hge)] at hmax
    cases hmax
  obtain ⟨r, hr⟩ := exists_response?_of_le hend (Nat.le_of_lt hi)
  obtain rfl : some (.error e) = r := by
    rw [response?_le (Nat.le_max_left fuel fuel') hr] at hmax
    exact (Option.some.inj hmax).symm
  exact hfree i hi e hr

/-- **Limits only truncate.**  Let `c'` be at least as permissive as `c`, with the same policy on repeated goals;
neither bounds the time, and nothing calls the searches off.  Then what is an answer under `c` is the same answer under
`c'`, and so are all before it; if the search under `c` comes to its end and has hit no bound, every request has the
same response under both; and where the number of steps is bounded, no more heads are ever tried than that, whatever
the world says: the machine that counts its attempts takes the turns of the machine and never counts more, and as long
as the search is not over, it counts the steps. -/
theorem limits_only_truncate (kb : HornBase) (query : Term) :
    (∀ c c', Loosens c' c → ∀ world world' : Nat → Nat → Signals,
      (∀ j k, (world j k).cancelled = false) → (∀ j k, (world' j k).cancelled = false) →
      (∀ fuel i s, response? kb c fuel world (.start query) i = some (some (.ok s)) → ∀ j ≤ i,
        ∃ s', response? kb c fuel world (.start query) j = some (some (.ok s')) ∧
          response? kb c' fuel world' (.start query) j = some (some (.ok s'))) ∧
      ∀ fuel n, response? kb c fuel world (.start query) n = some none →
        (∀ j < n, ∀ e, response? kb c fuel world (.start query) j = some (some (.error e)) → ¬ IsBound e) →
        ∀ fuel' i, response? kb c fuel' world (.start query) i = response? kb c' fuel' world' (.start query) i) ∧
    ∀ limits n, limits.maxSteps = some n → ∀ world turns, ∃ count ≤ n,
      (afterBy counted kb limits world turns (.start query)).run 0 =
        (afterUnder kb limits world turns (.start query), count) ∧
      ((afterUnder kb limits world turns (.start query)).halted = false →
        (afterUnder kb limits world turns (.start query)).steps = count) := by
  refine ⟨fun c c' h world world' hw hw' => ⟨fun fuel i s hs j hj => ?_, fun fuel n hend hfree fuel' i => ?_⟩, ?_⟩
  · exact exists_same_answer h hw hw' hs hj
  · exact response?_eq_of_truncated h hw hw' fun j _ e he => not_isBound_of_end hend hfree he
  · intro limits n hmax world turns
    obtain ⟨count, hrun, htried⟩ := (tried_start limits query).after kb world turns
    exact ⟨count, htried.bound n hmax, hrun, htried.steps⟩

/-- `p`, `p ← q` and `q`. -/
def detourBase : HornBase :=
  ⟨[⟨⟨false, [.const "p"]⟩, .const "p", rfl⟩,
    ⟨⟨false, [.const "p", .lit true "q"]⟩, .const "p", rfl⟩,
    ⟨⟨false, [.const "q"]⟩, .const "q", rfl⟩]⟩

/-- Three steps, and goals with fewer ancestors than `depth`. -/
def threeSteps (depth : Nat) : Limits :=
  ⟨some depth, some 3, none, .error⟩

/-- The fact proves `p`, and so does the detour, unless the depth is too small for it.  With a depth of two the search
comes to its end with the three steps that it may take, and goes as it does without limits; the last of them is taken at
the fifth turn. -/
theorem detourBase_truncated :
    let quiet : Nat → Nat → Signals := fun _ _ => ⟨false, 0⟩
    let m : Machine := .start (.const "p")
    (Loosens (threeSteps 2) (threeSteps 1) ∧
      (∃ s, response? detourBase (threeSteps 1) 9 quiet m 0 = some (some (.ok s)) ∧
        response? detourBase (threeSteps 2) 9 quiet m 0 = some (some (.ok s))) ∧
      response? detourBase (threeSteps 1) 9 quiet m 1 = some (some (.error (.depthLimit 1)))) ∧
    (Loosens (unlimited .error) (threeSteps 2) ∧ response? detourBase (threeSteps 2) 9 quiet m 2 = some none ∧
      ∀ fuel i, response? detourBase (threeSteps 2) fuel quiet m i =
        response? detourBase (unlimited .error) fuel quiet m i) ∧
    (∀ turns, ∃ count ≤ 3, (afterBy counted detourBase (threeSteps 2) (fun _ => ⟨false, 0⟩) turns m).run 0 =
      (afterUnder detourBase (threeSteps 2) (fun _ => ⟨false, 0⟩) turns m, count)) ∧
    ((afterBy counted detourBase (threeSteps 2) (fun _ => ⟨false, 0⟩) 5 m).run 0).2 = 3 := by
  intro quiet m
  have hquiet : ∀ j k, (quiet j k).cancelled = false := fun _ _ => rfl
  have hdepth : Loosens (threeSteps 2) (threeSteps 1) := by
    refine ⟨rfl, ?_, ?_, rfl, rfl⟩
    · rintro n ⟨⟩
      exact ⟨1, rfl, by decide⟩
    · rintro n ⟨⟩
      exact ⟨3, rfl, by decide⟩
  have hfree : Loosens (unlimited .error) (threeSteps 2) := ⟨rfl, nofun, nofun, rfl, rfl⟩
  obtain ⟨s₀, hs₀⟩ : ∃ s, response? detourBase (threeSteps 1) 9 quiet m 0 = some (some (.ok s)) := ⟨_, rfl⟩
  obtain ⟨s₁, hs₁⟩ : ∃ s, response? detourBase (threeSteps 2) 9 quiet m 1 = some (some (.ok s)) := ⟨_, rfl⟩
  have hend : response? detourBase (threeSteps 2) 9 quiet m 2 = some none := rfl
  have hnone : ∀ j < 2, ∀ e,
      response? detourBase (threeSteps 2) 9 quiet m j = some (some (.error e)) → ¬ IsBound e := by
    intro j hj e he
    obtain ⟨s, hs⟩ := exists_answer_of_le hs₁ (Nat.le_of_lt_succ hj)
    rw [hs] at he
    cases he
  obtain ⟨htrunc, hcount⟩ := limits_only_truncate detourBase (.const "p")
  have hanswer := (htrunc _ _ hdepth quiet quiet hquiet hquiet).1 9 0 s₀ hs₀ 0 (Nat.le_refl 0)
  refine ⟨⟨hdepth, hanswer, rfl⟩,
    ⟨hfree, hend, (htrunc _ _ hfree quiet quiet hquiet hquiet).2 9 2 hend hnone⟩, fun turns => ?_, rfl⟩
  obtain ⟨count, hle, hrun, -⟩ := hcount (threeSteps 2) 3 rfl (fun _ => ⟨false, 0⟩) turns
  exact ⟨count, hle, hrun⟩

end Responses

end Clausal.Machine
