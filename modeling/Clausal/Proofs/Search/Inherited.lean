import Clausal.Proofs.Search.Copy
import Clausal.Proofs.Search.Trace
import Clausal.Proofs.Unify.Soundness

/-!
# Clausal.Proofs.Search.Inherited — properties of all terms in a search

All terms that a search handles are parts of the query and of copies of clauses, put together by unification.

* `Inherited kb Q`: `Q` holds of copies and passes through unification; `Q n` may depend on the number `n` of the next
  copy.
* `Throughout Q n goals s`: `Q n` holds of the goals, of the goals they descend from, and of the bindings.
* `Inherited.kept`: rule applications preserve `Throughout Q`; `kept_acyclic` says the same of acyclicity.
-/

namespace Clausal.Machine

/-- `Q` holds of the copies of clauses of `kb`, and of what replacement and unification make of terms with `Q`. -/
structure Inherited (kb : HornBase) (Q : Nat → Term → Prop) : Prop where
  mono : ∀ {n m : Nat} {t : Term}, n ≤ m → Q n t → Q m t
  copy : ∀ {h : HornClause} {k : Nat} {t : Term}, h ∈ kb.clauses → t ∈ clauseTerms h →
    Q (renameClause h k).2 (copyTerm h k t)
  closed : ∀ n, Unify.Closed (Q n)
  var : ∀ {n : Nat} {t : Term} {x : String}, Q n t → t.mentions x = true → Q n (.var false x)
  mapVars : ∀ {n : Nat} {t : Term} {f : String → Term}, Q n t → (∀ x, t.mentions x = true → Q n (f x)) →
    Q n (t.mapVars f)

/-- `Q` holds of all terms of a branch, and of an occurrence of every bound variable. -/
structure Throughout (Q : Nat → Term → Prop) (n : Nat) (goals : List Goal) (s : Subst) : Prop where
  goals : ∀ g ∈ goals, ∀ t ∈ g.term :: g.ancestors, Q n t
  bindings : ∀ x b, s.get? x = some b → (∃ m, Q n (.var m x)) ∧ Q n b

variable {kb : HornBase} {Q : Nat → Term → Prop} {n m k : Nat} {goals : List Goal} {s : Subst}

theorem Throughout.mono (hQ : Inherited kb Q) (h : Throughout Q n goals s) (hnm : n ≤ m) :
    Throughout Q m goals s where
  goals g hg t ht := hQ.mono hnm (h.goals g hg t ht)
  bindings x b hb := by
    obtain ⟨⟨neg, hx⟩, hb⟩ := h.bindings x b hb
    exact ⟨⟨neg, hQ.mono hnm hx⟩, hQ.mono hnm hb⟩

/-- The selected goal under the substitution of its branch. -/
theorem Throughout.selected (hQ : Inherited kb Q) {b : Branch} (hb : Throughout Q n (Branch.goals b) b.subst) :
    Q n (b.subst.apply b.goal.term) := by
  refine Subst.apply_induct (fun t x ht hx => hQ.var ht hx) (fun t f ht hf => hQ.mapVars ht hf)
    (fun x t ht => (hb.bindings x t ht).2) ?_
  exact hb.goals b.goal List.mem_cons_self _ List.mem_cons_self

theorem Throughout.resolve (hQ : Inherited kb Q) {b : Branch} {h : HornClause}
    (hb : Throughout Q n (Branch.goals b) b.subst) (hmem : h ∈ kb.clauses) (hnk : n ≤ k)
    (hu : unify (renameClause h k).1.1 (b.subst.apply b.goal.term) b.subst = some s) :
    Throughout Q (renameClause h k).2 (Branch.next b (renameClause h k).1.2) s := by
  have hold := hb.mono hQ (Nat.le_trans hnk (le_renameClause h k))
  rw [renameClause_eq] at hu
  refine ⟨fun g hg t ht => ?_, fun x t hx => ?_⟩
  · -- a new goal comes from the copy, and its ancestors are old
    rw [renameClause_eq] at hg
    rcases mem_next.mp hg with ⟨q, hq, rfl⟩ | hg
    · obtain ⟨p, hp, rfl⟩ := List.mem_map.mp hq
      rcases List.mem_cons.mp ht with rfl | ht
      · exact hQ.copy hmem (List.mem_cons_of_mem _ hp)
      · exact hold.goals b.goal List.mem_cons_self t ht
    · exact hold.goals g (List.mem_cons_of_mem _ hg) t ht
  · -- a new binding is made of parts of the copy and of the goal
    have hes : ∀ e ∈ [(copyTerm h k h.head, b.subst.apply b.goal.term)],
        Q (renameClause h k).2 e.1 ∧ Q (renameClause h k).2 e.2 := by
      intro e he
      obtain rfl := List.mem_singleton.mp he
      exact ⟨hQ.copy hmem List.mem_cons_self, hold.selected hQ⟩
    rcases (Unify.solved_of_unify hu).bindings (hQ.closed _) hes (fun y u hy => (hold.bindings y u hy).2) x t hx with
      hx | hnew
    · exact hold.bindings x t hx
    · exact hnew

theorem Inherited.kept (hQ : Inherited kb Q) : Kept kb (Throughout Q) where
  mono hnm h := h.mono hQ hnm
  resolve hb hmem hnk hu := hb.resolve hQ hmem hnk hu

theorem throughout_start {query : Term} (h : Q 0 query) : Throughout Q 0 [⟨query, []⟩] .empty where
  goals := by
    intro g hg t ht
    obtain rfl := List.mem_singleton.mp hg
    obtain rfl := List.mem_singleton.mp ht
    exact h
  bindings x b hb := by
    rw [Subst.get?_empty] at hb
    cases hb

theorem kept_acyclic (kb : HornBase) : Kept kb fun _ _ s => s.Acyclic where
  mono _ h := h
  resolve hs _ _ hu := (Unify.solved_of_unify hu).acyclic hs

end Clausal.Machine
