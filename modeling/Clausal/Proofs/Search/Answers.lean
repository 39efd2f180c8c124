import Clausal.Proofs.Search.Inherited
import Clausal.Proofs.Source.Language
import Clausal.Proofs.Subst.Restriction

/-!
# Clausal.Proofs.Search.Answers — answers agree with themselves

The substitution that a search ends with binds variables of the query and of clause copies, in chains that may lead
from one kind to the other.  An answer shows the variables of the query alone, fully resolved.

* `Answer.Consistent a query s`: the bindings of `a` make the query its term, they are those of `s` for the variables of
  the query, in order of first occurrence, and no bound variable is left in it.
* `consistent_ofSubst`: so it is for every acyclic substitution and every query without quantifiers.
* `Trace.acyclic`: a search yields acyclic substitutions only.
-/

namespace Clausal

namespace Answer

variable {query : Term} {s : Subst}

/-- The variables that the answer binds, in the order in which they are shown. -/
def shown (a : Answer) : List String :=
  a.bindings.toList.map Prod.fst

/-- The answer shows of `s` what the variables of `query` stand for, and nothing else. -/
structure Consistent (a : Answer) (query : Term) (s : Subst) : Prop where
  apply_query : a.bindings.apply query = a.term
  mem_shown : ∀ x, x ∈ a.shown ↔ x ∈ query.occurrences ∧ s.contains x = true
  ordered : a.shown.Pairwise fun x y => query.occurrences.idxOf x < query.occurrences.idxOf y
  /-- A variable in the term, or in a binding, is bound neither by the answer nor by `s`. -/
  resolved : ∀ x, (a.term.mentions x = true ∨ ∃ e ∈ a.bindings.toList, e.2.mentions x = true) →
    a.bindings.get? x = none ∧ s.get? x = none

theorem toList_ofSubst (query : Term) (s : Subst) :
    (ofSubst query s).bindings.toList = (query.freeVars.filter s.contains).map fun x => (x, s.value x) :=
  s.toList_restrict (Term.nodup_freeVars query)

theorem shown_ofSubst (query : Term) (s : Subst) :
    (ofSubst query s).shown = query.freeVars.filter s.contains := by
  rw [shown, toList_ofSubst, List.map_map]
  exact List.map_id _

theorem unbound_of_ofSubst (hs : s.Acyclic) {x : String}
    (hx : (s.apply query).mentions x = true ∨ ∃ e ∈ (ofSubst query s).bindings.toList, e.2.mentions x = true) :
    s.get? x = none := by
  rcases hx with hx | ⟨e, he, hx⟩
  · exact Subst.unbound_of_mentions_apply hs hx
  · rw [toList_ofSubst] at he
    obtain ⟨y, -, rfl⟩ := List.mem_map.mp he
    exact Subst.unbound_of_mentions_value hs hx

/-- The answer that an acyclic substitution gives to a query without quantifiers. -/
theorem consistent_ofSubst (hs : s.Acyclic) (hquery : query.binderOccurrences = []) :
    (ofSubst query s).Consistent query s := by
  have henum := Term.enumerates_freeVars hquery
  refine ⟨?_, fun x => ?_, ?_, fun x hx => ?_⟩
  · exact Subst.apply_restrict hs fun x hx => (henum.mem_iff x).mpr (Term.mem_occurrences.mpr hx)
  · rw [shown_ofSubst, List.mem_filter, henum.mem_iff]
  · rw [shown_ofSubst]
    exact henum.ordered.filter _
  · have hnone := unbound_of_ofSubst hs hx
    exact ⟨Subst.get?_restrict_eq_none hnone _, hnone⟩

end Answer

namespace Machine

variable {kb : HornBase} {limits : Limits} {query : Term}

/-- A search yields acyclic substitutions. -/
theorem Trace.acyclic {out : List (Except SolveError Subst)} {m : Machine} {s : Subst}
    (ht : Trace kb limits query out m) (hs : .ok s ∈ out) : s.Acyclic := by
  obtain ⟨_, hacyclic⟩ := ((kept_acyclic kb).trace Subst.acyclic_empty ht).2 s hs
  exact hacyclic

/-- Every answer to a query without quantifiers agrees with itself, however long the search goes on and whatever limits
it has, and those that `proveAll` collects are such answers.  More generally, a restriction to the variables of a term
without quantifiers gives the term what the whole acyclic substitution gives it. -/
theorem answers_consistent (kb : HornBase) (limits : Limits) (query : Term) (hquery : query.binderOccurrences = []) :
    (∀ out m s, Trace kb limits query out m → .ok s ∈ out → (Answer.ofSubst query s).Consistent query s) ∧
    (∀ wanted fuel answers, proveAll kb limits query wanted fuel = some (.ok answers) → ∀ a ∈ answers,
      ∃ out m s, Trace kb limits query out m ∧ .ok s ∈ out ∧ a = .ofSubst query s ∧ a.Consistent query s) ∧
    ∀ (s : Subst) (xs : List String) (t : Term), s.Acyclic → t.binderOccurrences = [] → (∀ x ∈ t.freeVars, x ∈ xs) →
      (s.restrict xs).apply t = s.apply t := by
  have hall : ∀ out m s, Trace kb limits query out m → .ok s ∈ out → (Answer.ofSubst query s).Consistent query s :=
    fun out m s ht hs => Answer.consistent_ofSubst (ht.acyclic hs) hquery
  refine ⟨hall, fun wanted fuel answers h a ha => ?_, fun s xs t hs ht hxs => ?_⟩
  · obtain ⟨found, m, rfl, htrace, -⟩ := proveAll_trace h
    obtain ⟨s, hs, rfl⟩ := List.mem_map.mp ha
    have hmem : (Except.ok s : Except SolveError Subst) ∈ found.map .ok := List.mem_map_of_mem hs
    exact ⟨_, m, s, htrace, hmem, rfl, hall _ m s htrace hmem⟩
  · refine Subst.apply_restrict hs fun x hx => hxs x ?_
    exact ((Term.enumerates_freeVars ht).mem_iff x).mpr (Term.mem_occurrences.mpr hx)

/-- The fact `pair(X, f(X))`. -/
def pairBase : HornBase where
  clauses :=
    [⟨⟨false, [.rel false "pair" [.var false "X", .fn false "f" (.var false "X")]]⟩,
      .rel false "pair" [.var false "X", .fn false "f" (.var false "X")], rfl⟩]

/-- The variable of the clause stands for the first variable of the query, and the second one for a term in it. -/
theorem pairBase_answer :
    ∃ a, proveAll pairBase .standard (.rel false "pair" [.var false "A", .var false "B"]) none 10 = some (.ok [a]) ∧
      a.term = .rel false "pair" [.var false "A", .fn false "f" (.var false "A")] ∧
      a.bindings.toList = [("B", .fn false "f" (.var false "A"))] ∧
      a.bindings.apply (.rel false "pair" [.var false "A", .var false "B"]) = a.term := by
  have hanswer : proveAll pairBase .standard (.rel false "pair" [.var false "A", .var false "B"]) none 10 =
      some (.ok [.ofSubst (.rel false "pair" [.var false "A", .var false "B"])
        ((Subst.empty.insert "X_0" (.var false "A")).insert "B" (.fn false "f" (.var false "X_0")))]) := by rfl
  have hconsistent := (answers_consistent pairBase .standard _ rfl).2.1 _ _ _ hanswer _ List.mem_cons_self
  obtain ⟨_, _, _, _, _, _, hself⟩ := hconsistent
  exact ⟨_, hanswer, rfl, rfl, hself.apply_query⟩

end Machine

end Clausal
