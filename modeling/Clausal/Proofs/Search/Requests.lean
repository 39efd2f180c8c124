import Clausal.Proofs.Search.Refinement

/-!
# Clausal.Proofs.Search.Requests — asking a search for results

A search is asked for one result after the other, and at every turn of every request the world may say something else.

* `runUnder`: a run on which the world may change from turn to turn.
* `Trace.returned`: such a run is part of a `Trace`.
* `response?`: what the search gives to the request with a given number, if a given number of turns is enough for each;
  `Trace.exists_mem_of_response?` says that a `Trace` yields it.
* `solve_eq`: what `solve` returns is made of the response to the first request.
-/

namespace Clausal.Machine

variable {kb : HornBase} {limits : Limits} {query : Term} {m m' : Machine} {fuel fuel' : Nat}

/-! ## Runs in a changing world -/

section Runs

/-- At most `fuel` turns, up to the first that ends in something other than more work; `world k` is what the world says
at turn `k`. -/
def runUnder (kb : HornBase) (limits : Limits) (world : Nat → Signals) : Nat → Machine → Progress
  | 0, m => .running m
  | fuel + 1, m =>
    match step kb limits (world 0) m with
    | .running m' => runUnder kb limits (fun k => world (k + 1)) fuel m'
    | result => result

variable {world : Nat → Signals} {a : Option (Except SolveError Subst) × Machine}

theorem runUnder_of_running (h : step kb limits (world 0) m = .running m') :
    runUnder kb limits world (fuel + 1) m = runUnder kb limits (fun k => world (k + 1)) fuel m' := by
  rw [runUnder, h]

theorem runUnder_of_returned (h : returned (step kb limits (world 0) m) = some a) :
    runUnder kb limits world (fuel + 1) m = step kb limits (world 0) m := by
  unfold runUnder
  split
  · next m' hstep =>
    rw [hstep] at h
    cases h
  · rfl

/-- In a world that does not change a run is one as before. -/
theorem runUnder_const (now : Signals) (fuel : Nat) (m : Machine) :
    runUnder kb limits (fun _ => now) fuel m = run kb limits now fuel m := by
  induction fuel generalizing m with
  | zero => rfl
  | succ fuel ih =>
    rw [runUnder, run]
    cases step kb limits now m with
    | running m' => exact ih m'
    | answer s m' | stopped e m' | finished m' => rfl

/-- A run that has returned did so at its first turn, or went on from there. -/
theorem returned_runUnder_succ (h : returned (runUnder kb limits world (fuel + 1) m) = some a) :
    (∃ m₁, step kb limits (world 0) m = .running m₁ ∧
      returned (runUnder kb limits (fun k => world (k + 1)) fuel m₁) = some a) ∨
    returned (step kb limits (world 0) m) = some a := by
  cases hstep : step kb limits (world 0) m with
  | running m₁ =>
    rw [runUnder_of_running hstep] at h
    exact .inl ⟨m₁, rfl, h⟩
  | answer s m₁ | stopped e m₁ | finished m₁ =>
    rw [runUnder, hstep] at h
    exact .inr h

/-- More turns do not change what a run has come to. -/
theorem returned_runUnder_le (hle : fuel ≤ fuel') (h : returned (runUnder kb limits world fuel m) = some a) :
    returned (runUnder kb limits world fuel' m) = some a := by
  induction fuel generalizing fuel' m world with
  | zero => cases h
  | succ fuel ih =>
    obtain ⟨fuel', rfl⟩ : ∃ f, fuel' = f + 1 := ⟨fuel' - 1, by omega⟩
    rcases returned_runUnder_succ h with ⟨m₁, hstep, h⟩ | h
    · rw [runUnder_of_running hstep]
      exact ih (by omega) h
    · rw [runUnder_of_returned h, h]

/-- Without a bound on the time, a search that is not called off is not interrupted. -/
theorem interruption_eq_none {now : Signals} (htime : limits.timeoutMs = none)
    (hnow : now.cancelled = false) : interruption limits now = none := by
  simp [interruption, htime, hnow]

/-- A search that is over stays as it is. -/
theorem step_of_halted (hm : m.halted = true) (now : Signals) : step kb limits now m = .finished m := by
  rw [step_eq, if_pos hm]

/-- A turn that yields something other than an answer is the last one. -/
theorem halted_of_returned {now : Signals} {r : Option (Except SolveError Subst)}
    (h : returned (step kb limits now m) = some (r, m')) (hr : ∀ s, r ≠ some (.ok s)) : m'.halted = true := by
  have hturn := turn_step kb limits now m
  generalize step kb limits now m = result at h hturn
  cases hturn with
  | halted hh =>
    cases h
    exact hh
  | exhausted _ _ _ | interrupted _ | refused _ _ _ _ | spent _ _ _ _ _ _ _ _ =>
    cases h
    rfl
  | pruned _ _ _ | opened _ _ _ | failed _ _ _ _ _ _ _ _ | applied _ _ _ _ _ _ _ _ _ _ _ _ _ _ _ => cases h
  | answered _ _ _ _ _ _ s _ _ _ _ _ _ =>
    cases h
    exact absurd rfl (hr s)

/-- So is a run that yields something other than an answer. -/
theorem halted_of_returned_runUnder {r : Option (Except SolveError Subst)}
    (h : returned (runUnder kb limits world fuel m) = some (r, m')) (hr : ∀ s, r ≠ some (.ok s)) :
    m'.halted = true := by
  induction fuel generalizing m world with
  | zero => cases h
  | succ fuel ih =>
    rcases returned_runUnder_succ h with ⟨m₁, _, h⟩ | h
    · exact ih h
    · exact halted_of_returned h hr

/-- A run carries a search on, to a result or to its end. -/
theorem Trace.returned {out : List (Except SolveError Subst)} {r : Option (Except SolveError Subst)}
    (ht : Trace kb limits query out m) (h : Machine.returned (runUnder kb limits world fuel m) = some (r, m')) :
    (∃ result, r = some result ∧ Trace kb limits query (out ++ [result]) m') ∨
      r = none ∧ ∃ m₀ now, Trace kb limits query out m₀ ∧ step kb limits now m₀ = .finished m' := by
  induction fuel generalizing m world with
  | zero => cases h
  | succ fuel ih =>
    rcases returned_runUnder_succ h with ⟨m₁, hstep, h⟩ | h
    · exact ih (ht.running _ hstep) h
    · cases hstep : step kb limits (world 0) m with
      | running m₁ =>
        rw [hstep] at h
        cases h
      | answer s m₁ =>
        rw [hstep] at h
        cases h
        exact .inl ⟨.ok s, rfl, ht.answer _ hstep⟩
      | stopped e m₁ =>
        rw [hstep] at h
        cases h
        exact .inl ⟨.error e, rfl, ht.stopped _ hstep⟩
      | finished m₁ =>
        rw [hstep] at h
        cases h
        exact .inr ⟨rfl, m, world 0, ht, hstep⟩

end Runs

/-! ## Responses -/

section Responses

/-- What the search in the state `m` gives to the request with number `i`, if `fuel` turns are enough for each request;
`world j k` is what the world says at turn `k` of the request with number `j`. -/
def response? (kb : HornBase) (limits : Limits) (fuel : Nat) :
    (Nat → Nat → Signals) → Machine → Nat → Option (Option (Except SolveError Subst))
  | world, m, 0 => (returned (runUnder kb limits (world 0) fuel m)).map Prod.fst
  | world, m, i + 1 =>
    (returned (runUnder kb limits (world 0) fuel m)).bind fun a =>
      response? kb limits fuel (fun j => world (j + 1)) a.2 i

variable {world : Nat → Nat → Signals} {i : Nat} {r r' : Option (Except SolveError Subst)}

theorem response?_zero (h : returned (runUnder kb limits (world 0) fuel m) = some (r, m')) :
    response? kb limits fuel world m 0 = some r := by
  rw [response?, h]
  rfl

theorem response?_succ (h : returned (runUnder kb limits (world 0) fuel m) = some (r, m')) (i : Nat) :
    response? kb limits fuel world m (i + 1) = response? kb limits fuel (fun j => world (j + 1)) m' i := by
  rw [response?, h]
  rfl

theorem exists_returned_of_response? (h : response? kb limits fuel world m i = some r) :
    ∃ r₀ m', returned (runUnder kb limits (world 0) fuel m) = some (r₀, m') := by
  cases hret : returned (runUnder kb limits (world 0) fuel m) with
  | some a => exact ⟨a.1, a.2, rfl⟩
  | none => cases i <;> simp [response?, hret] at h

/-- A request that is answered comes after requests that are answered. -/
theorem exists_response?_of_le (h : response? kb limits fuel world m i = some r) {j : Nat} (hj : j ≤ i) :
    ∃ r', response? kb limits fuel world m j = some r' := by
  induction i generalizing world m j with
  | zero =>
    obtain rfl := Nat.le_zero.mp hj
    exact ⟨r, h⟩
  | succ i ih =>
    obtain ⟨r₀, m', hret⟩ := exists_returned_of_response? h
    cases j with
    | zero => exact ⟨r₀, response?_zero hret⟩
    | succ j =>
      rw [response?_succ hret] at h ⊢
      exact ih h (Nat.le_of_succ_le_succ hj)

/-- More turns for each request do not change a response. -/
theorem response?_le (hle : fuel ≤ fuel') (h : response? kb limits fuel world m i = some r) :
    response? kb limits fuel' world m i = some r := by
  induction i generalizing world m with
  | zero =>
    obtain ⟨r₀, m', hret⟩ := exists_returned_of_response? h
    rw [response?_zero hret] at h
    rw [response?_zero (returned_runUnder_le hle hret), h]
  | succ i ih =>
    obtain ⟨r₀, m', hret⟩ := exists_returned_of_response? h
    rw [response?_succ hret] at h
    rw [response?_succ (returned_runUnder_le hle hret)]
    exact ih h

/-- A search that is over has no more results. -/
theorem response?_of_halted (hm : m.halted = true) (i : Nat) :
    response? kb limits (fuel + 1) world m i = some none := by
  have hret : ∀ w : Nat → Signals, returned (runUnder kb limits w (fuel + 1) m) = some (none, m) := by
    intro w
    rw [runUnder, step_of_halted hm]
    rfl
  induction i generalizing world with
  | zero => exact response?_zero (hret _)
  | succ i ih =>
    rw [response?_succ (hret _)]
    exact ih

/-- After a response that is no answer there are no more results. -/
theorem response?_of_returned (h : returned (runUnder kb limits (world 0) fuel m) = some (r, m'))
    (hr : ∀ s, r ≠ some (.ok s)) (i : Nat) : response? kb limits fuel world m (i + 1) = some none := by
  rw [response?_succ h]
  cases fuel with
  | zero => cases h
  | succ fuel => exact response?_of_halted (halted_of_returned_runUnder h hr) i

/-- Before an answer there are answers only. -/
theorem exists_answer_of_le {s : Subst} (h : response? kb limits fuel world m i = some (some (.ok s))) {j : Nat}
    (hj : j ≤ i) : ∃ s', response? kb limits fuel world m j = some (some (.ok s')) := by
  induction i generalizing world m j with
  | zero =>
    obtain rfl := Nat.le_zero.mp hj
    exact ⟨s, h⟩
  | succ i ih =>
    obtain ⟨r₀, m', hret⟩ := exists_returned_of_response? h
    have hr₀ : ∃ s₀, r₀ = some (.ok s₀) := by
      by_contra hno
      rw [response?_of_returned hret (fun s₀ hs₀ => hno ⟨s₀, hs₀⟩)] at h
      cases h
    obtain ⟨s₀, rfl⟩ := hr₀
    cases j with
    | zero => exact ⟨s₀, response?_zero hret⟩
    | succ j =>
      rw [response?_succ hret] at h ⊢
      exact ih h (Nat.le_of_succ_le_succ hj)

/-- After the end there are no more results. -/
theorem response?_of_end {n : Nat} (h : response? kb limits fuel world m n = some none) (hi : n ≤ i) :
    response? kb limits fuel world m i = some none := by
  induction n generalizing world m i with
  | zero =>
    obtain ⟨r₀, m', hret⟩ := exists_returned_of_response? h
    rw [response?_zero hret] at h
    cases h
    cases i with
    | zero => exact response?_zero hret
    | succ i => exact response?_of_returned hret nofun i
  | succ n ih =>
    obtain ⟨i, rfl⟩ : ∃ k, i = k + 1 := ⟨i - 1, by omega⟩
    obtain ⟨r₀, m', hret⟩ := exists_returned_of_response? h
    rw [response?_succ hret] at h ⊢
    exact ih h (Nat.le_of_succ_le_succ hi)

/-- A result that a search gives to a request is one that it has yielded. -/
theorem Trace.exists_mem_of_response? {out : List (Except SolveError Subst)} {result : Except SolveError Subst}
    (ht : Trace kb limits query out m) (h : response? kb limits fuel world m i = some (some result)) :
    ∃ out' m', Trace kb limits query out' m' ∧ result ∈ out' := by
  induction i generalizing m out world with
  | zero =>
    obtain ⟨r₀, m', hret⟩ := exists_returned_of_response? h
    rw [response?_zero hret] at h
    cases h
    rcases ht.returned hret with ⟨result₀, hr, ht'⟩ | ⟨hr, -⟩
    · cases hr
      exact ⟨_, m', ht', List.mem_append_right _ List.mem_cons_self⟩
    · cases hr
  | succ i ih =>
    obtain ⟨r₀, m', hret⟩ := exists_returned_of_response? h
    rw [response?_succ hret] at h
    rcases ht.returned hret with ⟨result₀, -, ht'⟩ | ⟨-, m₀, now, ht', hend⟩
    · exact ih ht' h
    · exact ih (ht'.finished now hend) h

end Responses

/-! ## The first response -/

section Solve

/-- What `solve` makes of the first response. -/
def firstAnswer (query : Term) : Option (Except SolveError Subst) → Except SolveError (Option Term)
  | none => .ok none
  | some (.ok s) => .ok (some (s.apply query))
  | some (.error e) => .error e

/-- The collection of one answer comes to what the run comes to. -/
theorem advance_one (now : Signals) (query : Term) (fuel : Nat) (m : Machine) :
    Collection.advance kb limits now fuel ⟨query, m, [], some 1⟩ =
      match run kb limits now fuel m with
      | .running m' => .running ⟨query, m', [], some 1⟩
      | .answer s _ => .done [.ofSubst query s]
      | .stopped e _ => .failed e
      | .finished _ => .done [] := by
  induction fuel generalizing m with
  | zero => rfl
  | succ fuel ih =>
    rw [Collection.advance, run]
    cases step kb limits now m with
    | running m' => exact ih m'
    | answer s m' => cases fuel <;> rfl
    | stopped e m' | finished m' => rfl

theorem solve_eq (kb : HornBase) (limits : Limits) (query : Term) (fuel : Nat) :
    solve kb limits query fuel =
      (response? kb limits fuel (fun _ _ => ⟨false, 0⟩) (.start query) 0).map (firstAnswer query) := by
  rw [solve, proveAll, Collection.start, advance_one, response?, runUnder_const]
  cases run kb limits ⟨false, 0⟩ fuel (.start query) <;> rfl

end Solve

end Clausal.Machine
