import Clausal.Search.Answer

/-!
# Clausal.Proofs.Search.Trace — the runs of a search

A run of a search is a sequence of turns, at each of which the world may say anything.

* `resolve_spec`: what resolving a goal against a list of clauses does to it.
* `Turn`: all that one turn can do to a machine, one rule per kind of turn; `turn_step` says that `step` does one of
  them, and `cause_of_stopped` what it is that stops a turn.
* `Trace kb limits query out m`: a search for `query` that has yielded `out` and has come to the state `m`.
* `Kept P`: a property of conjunctions of goals that rule applications preserve; `Kept.trace` says that it holds of
  every branch of every reachable machine and of every answer.
* `proveAll_trace`: what `proveAll` returns are the answers of such a run.
-/

namespace Clausal.Machine

variable {kb : HornBase} {limits : Limits} {query : Term}

/-! ## Resolving a goal -/

section Resolve

/-- The clause `h` was passed over: it cannot match, or a copy of it with a number from `n` on does not unify. -/
def Skipped (n : Nat) (goal : Term) (s : Subst) (h : HornClause) : Prop :=
  mayMatch h.head goal = false ∨ ∃ k, n ≤ k ∧ unify (renameClause h k).1.1 goal s = none

theorem Skipped.mono {n m : Nat} {goal : Term} {s : Subst} {h : HornClause} (hs : Skipped m goal s h) (hnm : n ≤ m) :
    Skipped n goal s h := by
  rcases hs with hm | ⟨k, hk, hu⟩
  · exact .inl hm
  · exact .inr ⟨k, Nat.le_trans hnm hk, hu⟩

theorem le_renameClause (h : HornClause) (n : Nat) : n ≤ (renameClause h n).2 := by
  unfold renameClause
  split
  · exact Nat.le_refl n
  · exact Nat.le_succ n

/-- `s'` unifies the head of the copy of `h` with number `k` with `goal`, the clauses `pre` having been passed over;
`n` and `n'` are the numbers of the next copy before and after. -/
structure Applied (goal : Term) (s : Subst) (n : Nat) (pre : List HornClause) (h : HornClause) (k : Nat) (s' : Subst)
    (n' : Nat) : Prop where
  skipped : ∀ c ∈ pre, Skipped n goal s c
  le : n ≤ k
  unify : unify (renameClause h k).1.1 goal s = some s'
  next : n' = (renameClause h k).2

theorem Applied.cons {goal : Term} {s s' : Subst} {n m n' k : Nat} {pre : List HornClause} {c h : HornClause}
    (ha : Applied goal s m pre h k s' n') (hc : Skipped n goal s c) (hnm : n ≤ m) :
    Applied goal s n (c :: pre) h k s' n' where
  skipped := List.forall_mem_cons.mpr ⟨hc, fun c' hc' => (ha.skipped c' hc').mono hnm⟩
  le := Nat.le_trans hnm ha.le
  unify := ha.unify
  next := ha.next

/-- What comes of resolving a goal: the first clause that applies, or none does, or the steps run out. -/
def Resolution.Explains (goal : Term) (s : Subst) (clauses : List HornClause) (n : Nat) : Resolution → Prop
  | .applied premises s' untried _ n' => ∃ pre h k,
      clauses = pre ++ h :: untried ∧ premises = (renameClause h k).1.2 ∧ Applied goal s n pre h k s' n'
  | .failed _ n' => n ≤ n' ∧ ∀ c ∈ clauses, Skipped n goal s c
  | .stopped _ _ n' => n ≤ n'

theorem Resolution.Explains.cons {goal : Term} {s : Subst} {clauses : List HornClause} {n m : Nat} {c : HornClause}
    {r : Resolution} (hr : r.Explains goal s clauses m) (hc : Skipped n goal s c) (hnm : n ≤ m) :
    r.Explains goal s (c :: clauses) n := by
  cases r with
  | applied premises s' untried steps n' =>
    obtain ⟨pre, h, k, rfl, hp, ha⟩ := hr
    exact ⟨c :: pre, h, k, rfl, hp, ha.cons hc hnm⟩
  | failed steps n' =>
    obtain ⟨hle, hall⟩ := hr
    exact ⟨Nat.le_trans hnm hle, List.forall_mem_cons.mpr ⟨hc, fun c' hc' => (hall c' hc').mono hnm⟩⟩
  | stopped limit steps n' => exact Nat.le_trans hnm hr

theorem resolve_spec (limits : Limits) (goal : Term) (s : Subst) (clauses : List HornClause) (steps n : Nat) :
    (resolve limits goal s clauses steps n).Explains goal s clauses n := by
  induction clauses generalizing steps n with
  | nil => exact ⟨Nat.le_refl n, fun c hc => nomatch hc⟩
  | cons h untried ih =>
    rw [resolve_cons]
    split
    · next hm => exact (ih steps n).cons (.inl (by simpa using hm)) (Nat.le_refl n)
    · split
      · exact Nat.le_refl n
      · dsimp only
        split
        · next s' hu => exact ⟨[], h, n, rfl, rfl, ⟨fun c hc => (nomatch hc), Nat.le_refl n, hu, rfl⟩⟩
        · next hu =>
          exact (ih (steps + 1) (renameClause h n).2).cons (.inr ⟨n, Nat.le_refl n, hu⟩) (le_renameClause h n)

end Resolve

/-! ## One turn -/

section Turn

/-- All that a turn can do. -/
inductive Turn (kb : HornBase) (limits : Limits) (m : Machine) : Progress → Prop where
  | halted : m.halted = true → Turn kb limits m (.finished m)
  | exhausted : m.halted = false → m.pending = none → m.stack = [] →
    Turn kb limits m (.finished { m with halted := true })
  /-- The world calls for an error. -/
  | interrupted (e : SolveError) : Turn kb limits m (.stopped e { m with halted := true })
  /-- The pending branch may not be searched. -/
  | refused (b : Branch) (e : SolveError) : m.pending = some b → checkGoal limits b = .error e →
    Turn kb limits m (.stopped e { m with pending := none, halted := true })
  /-- The pending branch repeats a goal. -/
  | pruned (b : Branch) : m.pending = some b → checkGoal limits b = .ok false →
    Turn kb limits m (.running { m with pending := none })
  | opened (b : Branch) : m.pending = some b → checkGoal limits b = .ok true →
    Turn kb limits m (.running { m with pending := none, stack := ⟨b, kb.clauses⟩ :: m.stack })
  /-- There are no steps left. -/
  | spent (p : ChoicePoint) (stack : List ChoicePoint) (e : SolveError) (steps n : Nat) :
    m.pending = none → m.stack = p :: stack → m.renamings ≤ n →
    Turn kb limits m (.stopped e { m with stack := stack, steps := steps, renamings := n, halted := true })
  /-- No clause applies to the goal of the last choice point. -/
  | failed (p : ChoicePoint) (stack : List ChoicePoint) (steps n : Nat) :
    m.pending = none → m.stack = p :: stack → m.renamings ≤ n →
    (∀ c ∈ p.untried, Skipped m.renamings (p.branch.subst.apply p.branch.goal.term) p.branch.subst c) →
    Turn kb limits m (.running { m with stack := stack, steps := steps, renamings := n })
  /-- A clause applies, and there are goals left. -/
  | applied (b : Branch) (pre : List HornClause) (h : HornClause) (untried : List HornClause)
      (stack : List ChoicePoint) (k : Nat) (s : Subst) (goal : Goal) (rest : List Goal) (steps n : Nat) :
    m.pending = none → m.stack = ⟨b, pre ++ h :: untried⟩ :: stack →
    Applied (b.subst.apply b.goal.term) b.subst m.renamings pre h k s n →
    Branch.next b (renameClause h k).1.2 = goal :: rest →
    Turn kb limits m (.running { m with pending := some ⟨goal, rest, s⟩, stack := ⟨b, untried⟩ :: stack,
                                        steps := steps, renamings := n })
  /-- A clause applies, and no goal is left. -/
  | answered (b : Branch) (pre : List HornClause) (h : HornClause) (untried : List HornClause)
      (stack : List ChoicePoint) (k : Nat) (s : Subst) (steps n : Nat) :
    m.pending = none → m.stack = ⟨b, pre ++ h :: untried⟩ :: stack →
    Applied (b.subst.apply b.goal.term) b.subst m.renamings pre h k s n →
    Branch.next b (renameClause h k).1.2 = [] →
    Turn kb limits m (.answer s { m with stack := ⟨b, untried⟩ :: stack, steps := steps, renamings := n })

theorem turn_openBranch {m : Machine} {b : Branch} (hb : m.pending = some b) :
    Turn kb limits m (openBranch kb limits m b) := by
  unfold openBranch
  split
  · next e he => exact .refused b e hb he
  · next he => exact .opened b hb he
  · next he => exact .pruned b hb he

theorem turn_resolvePoint {m : Machine} {p : ChoicePoint} {stack : List ChoicePoint} (hpend : m.pending = none)
    (hstack : m.stack = p :: stack) : Turn kb limits m (resolvePoint limits m p stack) := by
  obtain ⟨b, clauses⟩ := p
  have hspec := resolve_spec limits (b.subst.apply b.goal.term) b.subst clauses m.steps m.renamings
  rw [resolvePoint_eq]
  unfold Resolution.progress
  split
  · next limit steps n heq =>
    rw [heq] at hspec
    exact .spent _ stack _ steps n hpend hstack hspec
  · next steps n heq =>
    rw [heq] at hspec
    exact .failed _ stack steps n hpend hstack hspec.1 hspec.2
  · next premises s untried steps n heq =>
    rw [heq] at hspec
    obtain ⟨pre, h, k, rfl, rfl, ha⟩ := hspec
    split
    · next hnext => exact .answered b pre h untried stack k s steps n hpend hstack ha hnext
    · next goal rest hnext => exact .applied b pre h untried stack k s goal rest steps n hpend hstack ha hnext

/-- A turn does one of the things above. -/
theorem turn_step (kb : HornBase) (limits : Limits) (now : Signals) (m : Machine) :
    Turn kb limits m (m.step kb limits now) := by
  rw [step_eq]
  split
  · next hh => exact .halted hh
  · next hh =>
    split
    · next e _ => exact .interrupted e
    · split
      · next b hb => exact turn_openBranch hb
      · next p stack hpend hstack => exact turn_resolvePoint hpend hstack
      · next hpend hstack => exact .exhausted (by simpa using hh) hpend hstack

/-- A turn stops because the world calls for it, because the pending branch may not be searched, or because there are no
steps left. -/
theorem cause_of_stopped {now : Signals} {m m' : Machine} {e : SolveError} (h : m.step kb limits now = .stopped e m') :
    interruption limits now = some e ∨ (∃ b, m.pending = some b ∧ checkGoal limits b = .error e) ∨
      ∃ limit goal s clauses steps n steps' n',
        resolve limits goal s clauses steps n = .stopped limit steps' n' ∧ e = .stepLimit limit := by
  rw [step_eq] at h
  split at h
  · cases h
  · split at h
    · next he =>
      cases h
      exact .inl he
    · split at h
      · next b hb =>
        unfold openBranch at h
        split at h
        · next he =>
          cases h
          exact .inr (.inl ⟨b, hb, he⟩)
        · cases h
        · cases h
      · rw [resolvePoint_eq] at h
        unfold Resolution.progress at h
        split at h
        · next heq =>
          cases h
          exact .inr (.inr ⟨_, _, _, _, _, _, _, _, heq, rfl⟩)
        · cases h
        · split at h <;> cases h
      · cases h

end Turn

/-! ## Runs -/

section Trace

/-- A search for `query` has yielded `out` and come to the state `m`, whatever the world said at each turn. -/
inductive Trace (kb : HornBase) (limits : Limits) (query : Term) : List (Except SolveError Subst) → Machine → Prop where
  | start : Trace kb limits query [] (.start query)
  | running {out : List (Except SolveError Subst)} {m m' : Machine} (now : Signals) :
    Trace kb limits query out m → m.step kb limits now = .running m' → Trace kb limits query out m'
  | answer {out : List (Except SolveError Subst)} {m m' : Machine} {s : Subst} (now : Signals) :
    Trace kb limits query out m → m.step kb limits now = .answer s m' → Trace kb limits query (out ++ [.ok s]) m'
  | stopped {out : List (Except SolveError Subst)} {m m' : Machine} {e : SolveError} (now : Signals) :
    Trace kb limits query out m → m.step kb limits now = .stopped e m' → Trace kb limits query (out ++ [.error e]) m'
  | finished {out : List (Except SolveError Subst)} {m m' : Machine} (now : Signals) :
    Trace kb limits query out m → m.step kb limits now = .finished m' → Trace kb limits query out m'

/-- All goals of a branch. -/
def Branch.goals (b : Branch) : List Goal :=
  b.goal :: b.rest

theorem mem_next {b : Branch} {premises : List Term} {g : Goal} :
    g ∈ Branch.next b premises ↔
      (∃ p ∈ premises, g = ⟨p, b.goal.term :: b.goal.ancestors⟩) ∨ g ∈ b.rest := by
  simp only [Branch.next, List.mem_append, List.mem_map, eq_comm]

/-- A property of goals under a substitution, and of the number of the next copy, that rule applications preserve. -/
structure Kept (kb : HornBase) (P : Nat → List Goal → Subst → Prop) : Prop where
  mono : ∀ {n m : Nat} {goals : List Goal} {s : Subst}, n ≤ m → P n goals s → P m goals s
  resolve : ∀ {n k : Nat} {b : Branch} {h : HornClause} {s : Subst}, P n (Branch.goals b) b.subst → h ∈ kb.clauses →
    n ≤ k → unify (renameClause h k).1.1 (b.subst.apply b.goal.term) b.subst = some s →
    P (renameClause h k).2 (Branch.next b (renameClause h k).1.2) s

variable {P : Nat → List Goal → Subst → Prop}

/-- Every branch of `m` has `P`, and only clauses of `kb` are to be tried. -/
structure Satisfies (kb : HornBase) (P : Nat → List Goal → Subst → Prop) (m : Machine) : Prop where
  pending : ∀ b, m.pending = some b → P m.renamings (Branch.goals b) b.subst
  stack : ∀ p ∈ m.stack, P m.renamings (Branch.goals p.branch) p.branch.subst ∧ p.untried ⊆ kb.clauses

/-- What a turn comes to has `P` throughout, an answer included. -/
def SatisfiedBy (kb : HornBase) (P : Nat → List Goal → Subst → Prop) : Progress → Prop
  | .running m | .stopped _ m | .finished m => m.Satisfies kb P
  | .answer s m => m.Satisfies kb P ∧ P m.renamings [] s

theorem satisfies_of_not_pending {m : Machine} (hpend : m.pending = none)
    (h : ∀ p ∈ m.stack, P m.renamings (Branch.goals p.branch) p.branch.subst ∧ p.untried ⊆ kb.clauses) :
    m.Satisfies kb P where
  pending b hb := by
    rw [hpend] at hb
    cases hb
  stack := h

theorem Satisfies.tail (hP : Kept kb P) {m : Machine} {p : ChoicePoint} {stack : List ChoicePoint} {n : Nat}
    (hm : m.Satisfies kb P) (hstack : m.stack = p :: stack) (hn : m.renamings ≤ n) :
    ∀ q ∈ stack, P n (Branch.goals q.branch) q.branch.subst ∧ q.untried ⊆ kb.clauses := by
  intro q hq
  obtain ⟨h1, h2⟩ := hm.stack q (by rw [hstack]; exact List.mem_cons_of_mem p hq)
  exact ⟨hP.mono hn h1, h2⟩

/-- After a clause was applied to the goal of a choice point, the choice point, those below it and the new goals have
`P`. -/
theorem Satisfies.apply (hP : Kept kb P) {m : Machine} {b : Branch} {pre untried : List HornClause} {h : HornClause}
    {stack : List ChoicePoint} {k n : Nat} {s : Subst} (hm : m.Satisfies kb P)
    (hstack : m.stack = ⟨b, pre ++ h :: untried⟩ :: stack)
    (ha : Applied (b.subst.apply b.goal.term) b.subst m.renamings pre h k s n) :
    (∀ q ∈ ⟨b, untried⟩ :: stack, P n (Branch.goals q.branch) q.branch.subst ∧ q.untried ⊆ kb.clauses) ∧
      P n (Branch.next b (renameClause h k).1.2) s := by
  obtain ⟨hb, hsub⟩ := hm.stack _ (by rw [hstack]; exact List.mem_cons_self)
  have hle : m.renamings ≤ n := by
    rw [ha.next]
    exact Nat.le_trans ha.le (le_renameClause h k)
  refine ⟨List.forall_mem_cons.mpr ⟨⟨hP.mono hle hb, fun c hc => ?_⟩, hm.tail hP hstack hle⟩, ?_⟩
  · exact hsub (List.mem_append_right pre (List.mem_cons_of_mem h hc))
  · rw [ha.next]
    exact hP.resolve hb (hsub (List.mem_append_right pre List.mem_cons_self)) ha.le ha.unify

/-- What one turn preserves. -/
theorem Kept.turn (hP : Kept kb P) {m : Machine} {r : Progress} (hm : m.Satisfies kb P) (hr : Turn kb limits m r) :
    SatisfiedBy kb P r := by
  cases hr with
  | halted _ | exhausted _ _ _ | interrupted e => exact ⟨hm.pending, hm.stack⟩
  | refused b e _ _ | pruned b _ _ => exact satisfies_of_not_pending rfl hm.stack
  | opened b hb _ =>
    refine satisfies_of_not_pending rfl (List.forall_mem_cons.mpr ⟨⟨hm.pending b hb, ?_⟩, hm.stack⟩)
    exact fun c hc => hc
  | spent p stack e steps n hpend hstack hn => exact satisfies_of_not_pending hpend (hm.tail hP hstack hn)
  | failed p stack steps n hpend hstack hn _ => exact satisfies_of_not_pending hpend (hm.tail hP hstack hn)
  | applied b pre h untried stack k s goal rest steps n hpend hstack ha hnext =>
    obtain ⟨h1, h2⟩ := hm.apply hP hstack ha
    refine ⟨?_, h1⟩
    rintro _ ⟨⟩
    rw [hnext] at h2
    exact h2
  | answered b pre h untried stack k s steps n hpend hstack ha hnext =>
    obtain ⟨h1, h2⟩ := hm.apply hP hstack ha
    rw [hnext] at h2
    exact ⟨satisfies_of_not_pending hpend h1, h2⟩

theorem satisfies_start (h : P 0 [⟨query, []⟩] .empty) : (start query).Satisfies kb P where
  pending := by
    rintro _ ⟨⟩
    exact h
  stack p hp := nomatch hp

/-- What a whole run preserves. -/
theorem Kept.trace (hP : Kept kb P) (hstart : P 0 [⟨query, []⟩] .empty) {out : List (Except SolveError Subst)}
    {m : Machine} (ht : Trace kb limits query out m) :
    m.Satisfies kb P ∧ ∀ s, .ok s ∈ out → ∃ n, P n [] s := by
  induction ht with
  | start => exact ⟨satisfies_start hstart, fun s hs => nomatch hs⟩
  | running now _ hstep ih | finished now _ hstep ih =>
    have hturn := hP.turn ih.1 (turn_step kb limits now _)
    rw [hstep] at hturn
    exact ⟨hturn, ih.2⟩
  | stopped now _ hstep ih =>
    have hturn := hP.turn ih.1 (turn_step kb limits now _)
    rw [hstep] at hturn
    refine ⟨hturn, fun s hs => ih.2 s ?_⟩
    simpa using hs
  | @answer out m m' s now _ hstep ih =>
    have hturn := hP.turn ih.1 (turn_step kb limits now m)
    rw [hstep] at hturn
    refine ⟨hturn.1, fun s' hs => ?_⟩
    rcases List.mem_append.mp hs with hs | hs
    · exact ih.2 s' hs
    · obtain rfl : s' = s := by simpa using hs
      exact ⟨m'.renamings, hturn.2⟩

end Trace

/-! ## Collected answers -/

section Collect

/-- The search of `c` has yielded the answers `found`, and no error. -/
structure Follows (kb : HornBase) (limits : Limits) (c : Collection) (found : List Subst) : Prop where
  trace : Trace kb limits c.query (found.map .ok) c.machine
  found_eq : c.found = (found.map (Answer.ofSubst c.query)).reverse

/-- The search of `c`, which has yielded `found`, ends with the answers `found ++ new`: nothing is left to try, or no
more are wanted. -/
def Ends (kb : HornBase) (limits : Limits) (c : Collection) (found new : List Subst) : Prop :=
  ∃ m, Trace kb limits c.query ((found ++ new).map .ok) m ∧
    ((∃ now m', m.step kb limits now = .finished m') ∨ c.wanted = some new.length)

variable {c : Collection} {found : List Subst} {answers : List Answer} {now : Signals} {fuel : Nat}

theorem follows_start (kb : HornBase) (limits : Limits) (query : Term) (wanted : Option Nat) :
    Follows kb limits (.start query wanted) [] :=
  ⟨.start, rfl⟩

theorem Follows.stay (hc : Follows kb limits c found)
    (hend : (∃ now m', c.machine.step kb limits now = .finished m') ∨ c.wanted = some 0)
    (h : Collected.done c.found.reverse = .done answers) :
    ∃ new, answers = (found ++ new).map (Answer.ofSubst c.query) ∧ Ends kb limits c found new := by
  cases h
  refine ⟨[], ?_, c.machine, ?_, hend⟩
  · rw [hc.found_eq, List.reverse_reverse, List.append_nil]
  · rw [List.append_nil]
    exact hc.trace

theorem Follows.advance (hc : Follows kb limits c found) (h : c.advance kb limits now fuel = .done answers) :
    ∃ new, answers = (found ++ new).map (Answer.ofSubst c.query) ∧ Ends kb limits c found new := by
  induction fuel generalizing c found with
  | zero =>
    rw [Collection.advance] at h
    split at h
    · next hw => exact hc.stay (.inr (by simpa using hw)) h
    · cases h
  | succ fuel ih =>
    rw [Collection.advance] at h
    split at h
    · next hw => exact hc.stay (.inr (by simpa using hw)) h
    · next hw =>
      split at h
      · next m hstep => exact ih (c := { c with machine := m }) ⟨hc.trace.running now hstep, hc.found_eq⟩ h
      · next s m hstep =>
        have hc' : Follows kb limits
            { c with machine := m, found := Answer.ofSubst c.query s :: c.found, wanted := c.wanted.map (· - 1) }
            (found ++ [s]) := by
          refine ⟨?_, by simp [hc.found_eq]⟩
          rw [List.map_append]
          exact hc.trace.answer now hstep
        obtain ⟨new, hanswers, m', htrace, hend⟩ := ih hc' h
        have hcons : found ++ [s] ++ new = found ++ s :: new := List.append_cons found s new |>.symm
        refine ⟨s :: new, by rw [hanswers, hcons], m', by rw [← hcons]; exact htrace, hend.imp_right fun hlast => ?_⟩
        -- one answer less was wanted after `s`
        obtain ⟨w, hw', hlen⟩ := Option.map_eq_some_iff.mp hlast
        have hpos : w ≠ 0 := by
          rintro rfl
          exact hw (by simp [hw'])
        rw [hw', List.length_cons]
        congr 1
        omega
      · cases h
      · next m hstep => exact hc.stay (.inl ⟨now, m, hstep⟩) h

/-- What `proveAll` returns are the answers of a run that has ended, or that has yielded as many as were wanted. -/
theorem proveAll_trace {wanted : Option Nat} (h : proveAll kb limits query wanted fuel = some (.ok answers)) :
    ∃ (found : List Subst) (m : Machine), answers = found.map (Answer.ofSubst query) ∧
      Trace kb limits query (found.map .ok) m ∧
      ((∃ now m', m.step kb limits now = .finished m') ∨ wanted = some found.length) := by
  unfold proveAll at h
  split at h
  · cases h
  · next hdone =>
    cases h
    obtain ⟨found, hanswers, m, htrace, hend⟩ := (follows_start kb limits query wanted).advance hdone
    exact ⟨found, m, hanswers, htrace, hend⟩
  · cases h

/-- What `solve` returns is the first answer of such a run. -/
theorem solve_trace {result : Option Term} (h : solve kb limits query fuel = some (.ok result)) :
    ∃ (found : List Subst) (m : Machine), result = found.head?.map (·.apply query) ∧
      Trace kb limits query (found.map .ok) m ∧
      ((∃ now m', m.step kb limits now = .finished m') ∨ found.length = 1) := by
  obtain ⟨r, hall, hr⟩ := Option.map_eq_some_iff.mp h
  cases r with
  | error e => cases hr
  | ok answers =>
    cases hr
    obtain ⟨found, m, rfl, htrace, hend⟩ := proveAll_trace hall
    refine ⟨found, m, ?_, htrace, hend.imp_right fun hlen => by simpa using hlen.symm⟩
    cases found <;> rfl

end Collect

end Clausal.Machine
