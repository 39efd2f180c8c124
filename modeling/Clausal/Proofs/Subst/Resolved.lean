import Clausal.Proofs.Subst.Acyclic

/-!
# Clausal.Proofs.Subst.Resolved — following bindings comes to an end

Applying a substitution and looking for a variable under it go from a term to its parts, and from a bound variable to
its binding.  On an acyclic substitution every such descent is finite, and what `apply` leaves is fully resolved.

* `Subst.Calls s u t`: the work on `t` asks for the work on `u`; `acc_calls` says that no chain of such calls goes on
  for ever.
* `unbound_of_mentions_apply`: no bound variable is left in the result of `apply`.
* `apply_of_unbound`, `apply_apply`: a term without bound variables stays as it is, so `apply` is idempotent.
-/

namespace Clausal.Subst

variable {s : Subst} {t u : Term} {x : String}

/-! ## Calls -/

section Calls

/-- The work on `t` under `s` asks for the work on `u`: a part of `t`, or the binding of the variable that `t` is. -/
inductive Calls (s : Subst) : Term → Term → Prop where
  | part {t u : Term} : u ∈ t.children → Calls s u t
  | binding {n : Bool} {x : String} {b : Term} : s.get? x = some b → Calls s b (.var n x)

theorem mentions_of_mem_children (hu : u ∈ t.children) (hx : u.mentions x = true) : t.mentions x = true := by
  cases t with
  | lit n a | var n y => cases hu
  | rel n a ts | freeClause n ts =>
    rw [Term.mentions, Term.mentionsAny_eq_true]
    exact ⟨u, hu, hx⟩
  | fn n a t | quant n q y t =>
    obtain rfl := List.mem_singleton.mp hu
    exact hx
  | conn n c l r =>
    rw [Term.mentions, Bool.or_eq_true]
    rcases List.mem_cons.mp hu with rfl | hu
    · exact .inl hx
    · obtain rfl := List.mem_singleton.mp hu
      exact .inr hx

/-- A term that is no variable calls for its parts only. -/
theorem acc_of_parts (ht : ∀ n x, t ≠ .var n x) (h : ∀ u ∈ t.children, Acc s.Calls u) : Acc s.Calls t := by
  refine Acc.intro t fun u hu => ?_
  cases hu with
  | part hu => exact h u hu
  | binding hb => exact absurd rfl (ht _ _)

/-- The work on a term ends if the work on the bindings of its variables does. -/
theorem acc_of_bindings (h : ∀ x b, t.mentions x = true → s.get? x = some b → Acc s.Calls b) : Acc s.Calls t := by
  have hpart : ∀ {t u : Term}, u ∈ t.children → (∀ x b, t.mentions x = true → s.get? x = some b → Acc s.Calls b) →
      ∀ x b, u.mentions x = true → s.get? x = some b → Acc s.Calls b :=
    fun hu ht x b hx => ht x b (mentions_of_mem_children hu hx)
  induction t using Term.induct with
  | var n x =>
    refine Acc.intro _ fun u hu => ?_
    cases hu with
    | part hu => cases hu
    | binding hb => exact h x u (by simp [Term.mentions]) hb
  | lit n a => exact acc_of_parts (by simp) (List.forall_mem_nil _)
  | rel n a ts ih | freeClause n ts ih => exact acc_of_parts (by simp) fun u hu => ih u hu (hpart hu h)
  | fn n a t ih | quant n q x t ih => exact acc_of_parts (by simp) (List.forall_mem_singleton.mpr (ih h))
  | conn n c l r ihl ihr =>
    have hl := ihl (hpart (t := .conn n c l r) List.mem_cons_self h)
    have hr := ihr (hpart (t := .conn n c l r) (List.mem_cons_of_mem l List.mem_cons_self) h)
    exact acc_of_parts (by simp) (List.forall_mem_cons.mpr ⟨hl, List.forall_mem_singleton.mpr hr⟩)

/-- On an acyclic substitution no chain of calls goes on for ever. -/
theorem acc_calls (hs : s.Acyclic) (t : Term) : Acc s.Calls t := by
  have key : ∀ n t, s.RankAtMost n t → Acc s.Calls t := by
    intro n
    induction n with
    | zero =>
      intro t ht
      refine acc_of_bindings fun x b hx hb => ?_
      rw [ht.unbound hx] at hb
      cases hb
    | succ n ih =>
      intro t ht
      exact acc_of_bindings fun x b hx hb => ih b (ht.binding hs hx hb)
  exact key s.load t (s.rankAtMost_load t)

end Calls

/-! ## Resolved terms -/

section Resolved

/-- What a variable stands for has no bound variable. -/
theorem unbound_of_mentions_value (hs : s.Acyclic) {y : String} (hx : (s.value y).mentions x = true) :
    s.get? x = none := by
  induction hn : s.rank y using Nat.strong_induction_on generalizing y with
  | _ n ih =>
    cases hb : s.get? y with
    | none =>
      rw [value_of_unbound hb] at hx
      obtain rfl : x = y := by simpa [Term.mentions] using hx
      exact hb
    | some b =>
      rw [value_of_get? hs hb, apply_eq_mapVars, Term.mentions_mapVars] at hx
      obtain ⟨z, hz, hxz⟩ := hx
      have hlt : s.rank z < n := by
        rw [← hn]
        exact rank_lt_of_leads hs ⟨b, hb, hz⟩
      exact ih (s.rank z) hlt hxz rfl

/-- No bound variable is left in a term that was resolved. -/
theorem unbound_of_mentions_apply (hs : s.Acyclic) (hx : (s.apply t).mentions x = true) : s.get? x = none := by
  rw [apply_eq_mapVars, Term.mentions_mapVars] at hx
  obtain ⟨y, -, hxy⟩ := hx
  exact unbound_of_mentions_value hs hxy

/-- A term without bound variables stays as it is. -/
theorem apply_of_unbound (h : ∀ x, t.mentions x = true → s.get? x = none) : s.apply t = t := by
  have hself : s.apply t = t.mapVars (.var false) := Term.mapVars_congr fun x hx => value_of_unbound (h x hx)
  rw [hself, Term.mapVars_var]

theorem apply_apply (hs : s.Acyclic) (t : Term) : s.apply (s.apply t) = s.apply t :=
  apply_of_unbound fun _ hx => unbound_of_mentions_apply hs hx

end Resolved

end Clausal.Subst
