import Clausal.Proofs.Forward.LeastModel
import Clausal.Proofs.Search.Completeness
import Clausal.Proofs.Search.Ground
import Clausal.Proofs.Search.Soundness

/-!
# Clausal.Proofs.Forward.Agreement — forward chaining and search agree

Where clauses and query have no variables, forward chaining and backward search decide the same thing, that the query is
derivable.

* `derivable_iff_follows`: what is derivable from ground clauses is what follows from them read as rules.
* `runUnder_prune_ne_error`: without limits, and if repeated goals are pruned, a search is never stopped.
* `exists_solve_prune`: so it comes to an answer or to its end, if the clauses are ground.
* `isSome_firstAnswer_iff`: a search that is not stopped before the first response has found an answer exactly if the
  query is derivable.
* `chaining_agrees`: the main statement.
-/

namespace Clausal

open Machine

variable {kb : HornBase} {limits : Limits} {query t : Term}

/-! ## Ground derivations -/

section Ground

/-- Among ground clauses an instance of a rule is the rule itself. -/
theorem derivable_iff_follows (hkb : kb.IsGround) (ht : t.isGround = true) :
    Derivable kb t ↔ Forward.Follows (Forward.rules kb) t := by
  constructor
  · intro h
    induction h with
    | @rule c hc θ _ ih =>
      have hsame : ∀ u ∈ clauseTerms c, u.mapVars θ = u := fun u hu => Term.mapVars_of_isGround (hkb c hc u hu) θ
      refine .fire (List.mem_map_of_mem hc) (fun p hp => ?_) ?_
      · have hp' : p ∈ clauseTerms c := List.mem_cons_of_mem _ hp
        have hprem := ih p hp
        rw [hsame p hp'] at hprem
        exact hprem (hkb c hc p hp')
      · rw [hsame c.head List.mem_cons_self]
        exact Term.same_refl c.head
  · intro h
    induction h with
    | @fire p t hmem _ hhead ih =>
      obtain ⟨c, hc, rfl⟩ := List.mem_map.mp hmem
      have hground := hkb c hc
      have hunsigned : c.head.isUnsigned = true := Term.isUnsigned_of_isGround (hground _ List.mem_cons_self)
      obtain rfl : c.head = t := Term.eq_of_same hunsigned (Term.isUnsigned_of_isGround ht) hhead
      have hrule : Derivable kb (c.head.mapVars (.var false)) := by
        refine .rule hc _ fun q hq => ?_
        rw [Term.mapVars_var]
        exact ih q hq (hground q (List.mem_cons_of_mem _ hq))
      rwa [Term.mapVars_var] at hrule

theorem searchable_of_isGround (hkb : kb.IsGround)
    (hfo : ∀ h ∈ kb.clauses, ∀ t ∈ clauseTerms h, t.isFirstOrder = true) (hquery : query.isGround = true)
    (hqfo : query.isFirstOrder = true) : Searchable kb query where
  clauses h hh t ht := ⟨hfo h hh t ht, Term.isUnsigned_of_isGround (hkb h hh t ht)⟩
  plain := ⟨hqfo, Term.isUnsigned_of_isGround hquery⟩
  apart h hh v hv := by
    obtain ⟨t, ht, hfree⟩ := mem_clauseVariables.mp hv
    exact absurd (Term.mentions_of_occursFree hfree) (Term.not_mentions_of_isGround (hkb h hh t ht) v)

end Ground

/-! ## Searches that prune -/

section Prune

/-- Nothing stops a turn. -/
theorem step_prune_ne_stopped {now : Signals} (hnow : now.cancelled = false) (m m' : Machine) (e : SolveError) :
    step kb (unlimited .prune) now m ≠ .stopped e m' := by
  intro hstep
  rcases cause_of_stopped hstep with he | ⟨b, -, he⟩ | ⟨limit, goal, s, clauses, steps, n, steps', n', hstop, -⟩
  · rw [interruption_eq_none rfl hnow] at he
    cases he
  · rw [checkGoal_unlimited] at he
    cases hcycle : Procedure.cycle? b.subst b.goal.ancestors b.goal.term <;> rw [hcycle] at he <;> cases he
  · exact absurd hstop (resolve_unlimited_ne _ _ _ _ _ _ _ _)

/-- Nothing stops a run. -/
theorem runUnder_prune_ne_error {world : Nat → Signals} (hworld : ∀ k, (world k).cancelled = false) {fuel : Nat}
    {m m' : Machine} {r : Option (Except SolveError Subst)}
    (h : returned (runUnder kb (unlimited .prune) world fuel m) = some (r, m')) (e : SolveError) :
    r ≠ some (.error e) := by
  induction fuel generalizing m world with
  | zero => cases h
  | succ fuel ih =>
    rcases returned_runUnder_succ h with ⟨m₁, _, h⟩ | h
    · exact ih (fun k => hworld (k + 1)) h
    · rintro rfl
      cases hstep : step kb (unlimited .prune) (world 0) m with
      | stopped e m₁ => exact step_prune_ne_stopped (hworld 0) m m₁ e hstep
      | running m₁ | answer s m₁ | finished m₁ =>
        rw [hstep] at h
        cases h

/-- Among ground clauses such a search comes to an answer or to its end. -/
theorem exists_solve_prune (hkb : kb.IsGround) (query : Term) :
    ∃ o bound, ∀ fuel, bound ≤ fuel → solve kb (unlimited .prune) query fuel = some (.ok o) := by
  obtain ⟨bound, hends⟩ := (descends_of_isGround hkb (unlimited .prune) query).ends (unrepeated_start kb query)
  obtain ⟨r, hr, -⟩ := hends (fun _ _ => ⟨false, 0⟩) 0
  have hsolve : ∀ fuel, bound ≤ fuel → solve kb (unlimited .prune) query fuel = some (firstAnswer query r) := by
    intro fuel hle
    rw [solve_eq, response?_le hle hr]
    rfl
  obtain ⟨r', m', hret⟩ := exists_returned_of_response? hr
  rw [response?_zero hret] at hr
  cases hr
  match r, hret with
  | none, _ => exact ⟨none, bound, hsolve⟩
  | some (.ok s), _ => exact ⟨some (s.apply query), bound, hsolve⟩
  | some (.error e), hret => exact absurd rfl (runUnder_prune_ne_error (fun _ => rfl) hret e)

end Prune

/-! ## The first answer -/

section FirstAnswer

/-- What is returned to the first request decides whether a ground query is derivable. -/
theorem isSome_firstAnswer_iff (hs : Searchable kb query) (hquery : query.isGround = true) {fuel : Nat}
    {world : Nat → Nat → Signals} {r : Option (Except SolveError Subst)} {o : Option Term}
    (h : response? kb limits fuel world (.start query) 0 = some r) (ho : firstAnswer query r = .ok o) :
    o.isSome = true ↔ Derivable kb query := by
  obtain ⟨r', m', hret⟩ := exists_returned_of_response? h
  rw [response?_zero hret] at h
  cases h
  rcases Trace.start.returned hret with ⟨result, rfl, htrace⟩ | ⟨rfl, m₀, now, htrace, hend⟩
  · cases result with
    | error e => cases ho
    | ok s =>
      cases ho
      have hder := htrace.derivable List.mem_cons_self
      rw [Subst.apply_eq_mapVars, Term.mapVars_of_isGround hquery] at hder
      exact iff_of_true rfl hder
  · cases ho
    refine iff_of_false nofun fun hder => ?_
    -- the search has come to its end without an answer
    rw [← Term.mapVars_var query] at hder
    obtain ⟨s, hmem, -⟩ := htrace.exhausted hs hder (forall_map_ok []) hend
    cases hmem

/-- **Forward chaining and search agree.**  Let clauses and query be built from constants, relations and functions,
without variables, and let the query have no negation sign.  Without limits, and if repeated goals are pruned, `solve`
returns an answer or that there is none; and whatever the limits and the policy on repeated goals, if it returns one of
the two, that is an answer exactly if forward chaining derives the query.  This holds of the first request to the search
in a world that changes from turn to turn as well. -/
theorem chaining_agrees (kb : HornBase) (query : Term) (hkb : kb.IsGround)
    (hfo : ∀ h ∈ kb.clauses, ∀ t ∈ clauseTerms h, t.isFirstOrder = true) (hquery : query.isGround = true)
    (hqfo : query.isFirstOrder = true) (hpos : query.isNegated = false) :
    (∃ o bound, (∀ fuel, bound ≤ fuel → solve kb (unlimited .prune) query fuel = some (.ok o)) ∧
      o.isSome = kb.entails query) ∧
    (∀ limits fuel o, solve kb limits query fuel = some (.ok o) → o.isSome = kb.entails query) ∧
    ∀ limits fuel world r o, response? kb limits fuel world (.start query) 0 = some r →
      firstAnswer query r = .ok o → o.isSome = kb.entails query := by
  have hs : Searchable kb query := searchable_of_isGround hkb hfo hquery hqfo
  have hentails : Derivable kb query ↔ kb.entails query = true := by
    have hpositive : query.positive = query := by cases query <;> cases hpos <;> rfl
    rw [Forward.entails_iff, hpositive]
    exact derivable_iff_follows hkb hquery
  have hresponse : ∀ limits fuel world r o, response? kb limits fuel world (.start query) 0 = some r →
      firstAnswer query r = .ok o → o.isSome = kb.entails query := fun limits fuel world r o h ho =>
    Bool.eq_iff_iff.mpr ((isSome_firstAnswer_iff hs hquery h ho).trans hentails)
  have hsolve : ∀ limits fuel o, solve kb limits query fuel = some (.ok o) → o.isSome = kb.entails query := by
    intro limits fuel o h
    rw [solve_eq] at h
    obtain ⟨r, hr, ho⟩ := Option.map_eq_some_iff.mp h
    exact hresponse limits fuel _ r o hr ho
  obtain ⟨o, bound, hreturns⟩ := exists_solve_prune hkb query
  exact ⟨⟨o, bound, hreturns, hsolve _ bound o (hreturns bound (Nat.le_refl bound))⟩, hsolve, hresponse⟩

/-- `a ← b`, `b ← a`, `b ← c, d`, `c`, `d ← c` and `e ← e`. -/
def circularBase : HornBase :=
  ⟨[⟨⟨false, [.const "a", .lit true "b"]⟩, .const "a", rfl⟩,
    ⟨⟨false, [.const "b", .lit true "a"]⟩, .const "b", rfl⟩,
    ⟨⟨false, [.const "b", .lit true "c", .lit true "d"]⟩, .const "b", rfl⟩,
    ⟨⟨false, [.const "c"]⟩, .const "c", rfl⟩,
    ⟨⟨false, [.const "d", .lit true "c"]⟩, .const "d", rfl⟩,
    ⟨⟨false, [.const "e", .lit true "e"]⟩, .const "e", rfl⟩]⟩

/-- `a` is proved by way of `b`, which it is itself a reason for; `e` has no other reason than itself. -/
theorem circularBase_agrees :
    (circularBase.entails (.const "a") = true ∧ ∃ o bound,
      (∀ fuel, bound ≤ fuel → solve circularBase (unlimited .prune) (.const "a") fuel = some (.ok o)) ∧
        o.isSome = true) ∧
    (circularBase.entails (.const "e") = false ∧ ∃ o bound,
      (∀ fuel, bound ≤ fuel → solve circularBase (unlimited .prune) (.const "e") fuel = some (.ok o)) ∧
        o.isSome = false) ∧
    ∀ fuel o, solve circularBase .standard (.const "b") fuel = some (.ok o) → o.isSome = true := by
  have hkb : circularBase.IsGround := by decide
  have hfo : ∀ h ∈ circularBase.clauses, ∀ t ∈ clauseTerms h, t.isFirstOrder = true := by decide
  have ha : circularBase.entails (.const "a") = true := rfl
  have hb : circularBase.entails (.const "b") = true := rfl
  have he : circularBase.entails (.const "e") = false := rfl
  refine ⟨⟨ha, ?_⟩, ⟨he, ?_⟩, fun fuel o h => ?_⟩
  · rw [← ha]
    exact (chaining_agrees circularBase (.const "a") hkb hfo rfl rfl rfl).1
  · rw [← he]
    exact (chaining_agrees circularBase (.const "e") hkb hfo rfl rfl rfl).1
  · rw [← hb]
    exact (chaining_agrees circularBase (.const "b") hkb hfo rfl rfl rfl).2.1 .standard fuel o h

end FirstAnswer

end Clausal
