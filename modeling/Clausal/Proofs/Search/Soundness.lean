import Clausal.Proofs.Search.Copy
import Clausal.Proofs.Search.Derivation
import Clausal.Proofs.Search.Trace
import Clausal.Proofs.Unify.Soundness

/-!
# Clausal.Proofs.Search.Soundness — answers are derivable

The goals of a branch and its substitution are an unfinished proof of the query: `Proves` says that every replacement
that agrees with the substitution and makes the goals derivable makes the query derivable.

* `Proves.resolve`: one rule application keeps this, since the replacement makes the head of the copy and the goal
  equal.
* `answers_derivable`: hence the query under an answer is derivable, whatever the limits and however long the search
  goes on.
-/

namespace Clausal.Machine

variable {kb : HornBase} {query : Term}

/-- An unfinished proof of `query`: what is left to prove are the goals. -/
structure Proves (kb : HornBase) (query : Term) (goals : List Goal) (s : Subst) : Prop where
  acyclic : s.Acyclic
  derivable : ∀ σ, s.Admits σ → (∀ g ∈ goals, Derivable kb (g.term.mapVars σ)) → Derivable kb (query.mapVars σ)

theorem proves_start (kb : HornBase) (query : Term) : Proves kb query [⟨query, []⟩] .empty where
  acyclic := Subst.acyclic_empty
  derivable _ _ hgoals := hgoals _ List.mem_cons_self

/-- A replacement that makes the premises of a copy derivable makes its head derivable. -/
theorem derivable_copyTerm {h : HornClause} (hmem : h ∈ kb.clauses) {n : Nat} {σ : String → Term}
    (hprem : ∀ p ∈ h.premises, Derivable kb ((copyTerm h n p).mapVars σ)) :
    Derivable kb ((copyTerm h n h.head).mapVars σ) := by
  unfold copyTerm at hprem ⊢
  rw [Term.mapVars_mapVars]
  refine .rule hmem _ fun p hp => ?_
  rw [← Term.mapVars_mapVars]
  exact hprem p hp

/-- Unifying makes a replacement that agrees with the result give one value to the two terms. -/
theorem mapVars_eq_of_unify {t u : Term} {s s' : Subst} {σ : String → Term} (hs : s.Acyclic)
    (hu : unify t (s.apply u) s = some s') (hσ : s'.Admits σ) : t.mapVars σ = u.mapVars σ := by
  have hsolved := Unify.solved_of_unify hu
  calc t.mapVars σ = (s.apply u).mapVars σ := hsolved.mapVars_eq hs hσ
    _ = u.mapVars σ := (hσ.of_extends hsolved.extends).mapVars_apply hs u

/-- A rule application keeps an unfinished proof. -/
theorem Proves.resolve {b : Branch} {h : HornClause} {k : Nat} {s : Subst}
    (hb : Proves kb query (Branch.goals b) b.subst) (hmem : h ∈ kb.clauses)
    (hu : unify (renameClause h k).1.1 (b.subst.apply b.goal.term) b.subst = some s) :
    Proves kb query (Branch.next b (renameClause h k).1.2) s := by
  rw [renameClause_eq] at hu ⊢
  have hsolved := Unify.solved_of_unify hu
  refine ⟨hsolved.acyclic hb.acyclic, fun σ hσ hgoals => ?_⟩
  refine hb.derivable σ (hσ.of_extends hsolved.extends) (List.forall_mem_cons.mpr ⟨?_, fun g hg => ?_⟩)
  · -- the selected goal is the head of the copy
    rw [← mapVars_eq_of_unify hb.acyclic hu hσ]
    refine derivable_copyTerm hmem fun p hp => ?_
    exact hgoals _ (mem_next.mpr (.inl ⟨_, List.mem_map_of_mem hp, rfl⟩))
  · exact hgoals g (mem_next.mpr (.inr hg))

theorem kept_proves (kb : HornBase) (query : Term) : Kept kb fun _ => Proves kb query where
  mono _ h := h
  resolve hb hmem _ hu := hb.resolve hmem hu

/-- A proof with nothing left to prove. -/
theorem Proves.answer {s : Subst} (h : Proves kb query [] s) : Derivable kb (s.apply query) :=
  h.derivable s.value (Subst.admits_value h.acyclic) fun _ hg => nomatch hg

theorem Trace.derivable {limits : Limits} {out : List (Except SolveError Subst)} {m : Machine} {s : Subst}
    (ht : Trace kb limits query out m) (hs : .ok s ∈ out) : Derivable kb (s.apply query) := by
  obtain ⟨n, hn⟩ := ((kept_proves kb query).trace (proves_start kb query) ht).2 s hs
  exact hn.answer

/-- The query under an answer is derivable: for every answer that a search yields, and so for what `proveAll` and
`solve` return. -/
theorem answers_derivable (kb : HornBase) (limits : Limits) (query : Term) :
    (∀ out m s, Trace kb limits query out m → .ok s ∈ out → Derivable kb (s.apply query)) ∧
    (∀ wanted fuel answers, proveAll kb limits query wanted fuel = some (.ok answers) →
      ∀ a ∈ answers, Derivable kb a.term) ∧
    (∀ fuel t, solve kb limits query fuel = some (.ok (some t)) → Derivable kb t) := by
  refine ⟨fun out m s ht hs => ht.derivable hs, fun wanted fuel answers h a ha => ?_, fun fuel t h => ?_⟩
  · obtain ⟨found, m, rfl, htrace, -⟩ := proveAll_trace h
    obtain ⟨s, hs, rfl⟩ := List.mem_map.mp ha
    exact htrace.derivable (List.mem_map_of_mem hs)
  · obtain ⟨found, m, hfirst, htrace, -⟩ := solve_trace h
    obtain ⟨s, hs, rfl⟩ := Option.map_eq_some_iff.mp hfirst.symm
    exact htrace.derivable (List.mem_map_of_mem (List.mem_of_mem_head? hs))

/-- The fact `p(a)` and the rule `q(X)` from `p(X)`. -/
def oneStepBase : HornBase where
  clauses :=
    [⟨⟨false, [.rel false "p" [.const "a"]]⟩, .rel false "p" [.const "a"], rfl⟩,
     ⟨⟨false, [.rel false "q" [.var false "X"], .rel true "p" [.var false "X"]]⟩, .rel false "q" [.var false "X"], rfl⟩]

/-- The first answer to `q(Y)` is `q(a)`, which is derivable. -/
theorem derivable_oneStepBase :
    solve oneStepBase .standard (.rel false "q" [.var false "Y"]) 10 = some (.ok (some (.rel false "q" [.const "a"]))) ∧
    Derivable oneStepBase (.rel false "q" [.const "a"]) := by
  have hsolve : solve oneStepBase .standard (.rel false "q" [.var false "Y"]) 10 =
      some (.ok (some (.rel false "q" [.const "a"]))) := by rfl
  exact ⟨hsolve, (answers_derivable oneStepBase .standard _).2.2 10 _ hsolve⟩

end Clausal.Machine
