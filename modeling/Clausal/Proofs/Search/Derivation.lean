import Clausal.Horn
import Clausal.Proofs.Term.Replacement

/-!
# Clausal.Proofs.Search.Derivation — what follows from Horn clauses

A term is derivable from a knowledge base if it is an instance of the head of a rule whose premises, under the same
replacement of variables, are derivable.

* `Derivable kb t`: the least set of terms closed under the rules of `kb`.
* `DerivableIn kb n t`: `t` has a proof of height at most `n`; `derivable_iff` says that every proof has a height.
* `Shorter kb t u`: `t` has a proof that is shorter than every proof of `u`.  It is a strict order, and
  `Derivable.last_rule` says that a derivable term is the conclusion of a rule all of whose premises are shorter.
-/

namespace Clausal

/-- `t` follows from the rules of `kb`. -/
inductive Derivable (kb : HornBase) : Term → Prop where
  | rule {h : HornClause} (hmem : h ∈ kb.clauses) (θ : String → Term)
      (hprem : ∀ p ∈ h.premises, Derivable kb (p.mapVars θ)) : Derivable kb (h.head.mapVars θ)

/-- `t` has a proof of height at most `n`. -/
def DerivableIn (kb : HornBase) : Nat → Term → Prop
  | 0, _ => False
  | n + 1, t => ∃ h ∈ kb.clauses, ∃ θ : String → Term, t = h.head.mapVars θ ∧
      ∀ p ∈ h.premises, DerivableIn kb n (p.mapVars θ)

/-- `t` has a proof shorter than every proof of `u`. -/
def Shorter (kb : HornBase) (t u : Term) : Prop :=
  ∃ n, DerivableIn kb n t ∧ ¬ DerivableIn kb n u

variable {kb : HornBase} {t u v : Term} {n m : Nat}

/-! ## Height -/

section Height

theorem DerivableIn.succ (h : DerivableIn kb n t) : DerivableIn kb (n + 1) t := by
  induction n generalizing t with
  | zero => cases h
  | succ n ih =>
    obtain ⟨c, hc, θ, rfl, hprem⟩ := h
    exact ⟨c, hc, θ, rfl, fun p hp => ih (hprem p hp)⟩

theorem DerivableIn.mono (h : DerivableIn kb n t) (hnm : n ≤ m) : DerivableIn kb m t := by
  induction hnm with
  | refl => exact h
  | step _ ih => exact ih.succ

theorem DerivableIn.derivable (h : DerivableIn kb n t) : Derivable kb t := by
  induction n generalizing t with
  | zero => cases h
  | succ n ih =>
    obtain ⟨c, hc, θ, rfl, hprem⟩ := h
    exact .rule hc θ fun p hp => ih (hprem p hp)

/-- Finitely many terms that have proofs have proofs of one height. -/
theorem exists_common_height {ts : List Term} (h : ∀ t ∈ ts, ∃ n, DerivableIn kb n t) :
    ∃ n, ∀ t ∈ ts, DerivableIn kb n t := by
  induction ts with
  | nil => exact ⟨0, fun t ht => nomatch ht⟩
  | cons t ts ih =>
    obtain ⟨⟨n, hn⟩, hts⟩ := List.forall_mem_cons.mp h
    obtain ⟨m, hm⟩ := ih hts
    refine ⟨max n m, List.forall_mem_cons.mpr ⟨hn.mono (Nat.le_max_left n m), fun u hu => ?_⟩⟩
    exact (hm u hu).mono (Nat.le_max_right n m)

/-- Every proof has a height. -/
theorem derivable_iff : Derivable kb t ↔ ∃ n, DerivableIn kb n t := by
  constructor
  · intro h
    induction h with
    | @rule c hc θ _ ih =>
      have hall : ∀ t ∈ c.premises.map (Term.mapVars θ), ∃ n, DerivableIn kb n t := by
        intro t ht
        obtain ⟨p, hp, rfl⟩ := List.mem_map.mp ht
        exact ih p hp
      obtain ⟨n, hn⟩ := exists_common_height hall
      exact ⟨n + 1, c, hc, θ, rfl, fun p hp => hn _ (List.mem_map_of_mem hp)⟩
  · rintro ⟨n, h⟩
    exact h.derivable

end Height

/-! ## Shorter proofs -/

section Shorter

theorem Shorter.derivable (h : Shorter kb t u) : Derivable kb t := by
  obtain ⟨n, ht, -⟩ := h
  exact ht.derivable

theorem Shorter.ne (h : Shorter kb t u) : t ≠ u := by
  rintro rfl
  obtain ⟨n, ht, hu⟩ := h
  exact hu ht

theorem Shorter.trans (h : Shorter kb t u) (h' : Shorter kb u v) : Shorter kb t v := by
  obtain ⟨n, ht, hu⟩ := h
  obtain ⟨m, hu', hv⟩ := h'
  rcases Nat.le_total n m with hnm | hmn
  · exact ⟨m, ht.mono hnm, hv⟩
  · exact absurd (hu'.mono hmn) hu

/-- A derivable term is the conclusion of a rule with premises that have shorter proofs. -/
theorem Derivable.last_rule (h : Derivable kb t) :
    ∃ c ∈ kb.clauses, ∃ θ : String → Term, t = c.head.mapVars θ ∧
      ∀ p ∈ c.premises, Shorter kb (p.mapVars θ) t := by
  obtain ⟨n, hn⟩ := derivable_iff.mp h
  induction n with
  | zero => cases hn
  | succ n ih =>
    -- if the height can be lowered, lower it; otherwise the premises are below every proof of `t`
    by_cases hlow : DerivableIn kb n t
    · exact ih hlow
    · obtain ⟨c, hc, θ, heq, hprem⟩ := hn
      exact ⟨c, hc, θ, heq, fun p hp => ⟨n, hprem p hp, hlow⟩⟩

end Shorter

end Clausal
