import Mathlib.Data.Option.Defs
import Mathlib.Logic.Equiv.Defs
import Clausal.Proofs.Term.Relabel
import Clausal.Proofs.Unify.Evaluation

/-!
# Clausal.Proofs.Unify.Renaming — unification does not depend on names

Unification, look-up and application compare names for equality and do nothing else with them.  So they commute with
every permutation of the names.

* `Subst.RenamedBy ρ s s'`: `s'` is `s` with `ρ x` for every variable `x`, in the bindings and in what they bind.
* `RenamedBy.apply`, `RenamedBy.occurs`: what is done under `s'` to a renamed term is what is done under `s` to the
  term.
* `RenamedBy.unify`: renamed terms unify under `s'` exactly if the terms do under `s`, with renamed results.
-/

namespace Clausal.Subst

open Relation

variable {ρ : Equiv.Perm String} {s s' : Subst} {x y : String} {t u : Term}

/-- The bindings of `s'` are those of `s` with the variables renamed. -/
def RenamedBy (ρ : Equiv.Perm String) (s s' : Subst) : Prop :=
  ∀ x, s'.get? (ρ x) = (s.get? x).map (Term.relabel ρ)

/-! ## Look-up and chains of bindings -/

section Chains

theorem renamedBy_empty (ρ : Equiv.Perm String) : RenamedBy ρ .empty .empty := by
  intro x
  rw [get?_empty, get?_empty]
  rfl

theorem RenamedBy.get?_eq_none (h : s.RenamedBy ρ s') (hx : s.get? x = none) : s'.get? (ρ x) = none := by
  rw [h x, hx]
  rfl

theorem RenamedBy.get?_eq_some (h : s.RenamedBy ρ s') {b : Term} (hx : s.get? x = some b) :
    s'.get? (ρ x) = some (b.relabel ρ) := by
  rw [h x, hx]
  rfl

theorem RenamedBy.insert (h : s.RenamedBy ρ s') (x : String) (t : Term) :
    (s.insert x t).RenamedBy ρ (s'.insert (ρ x) (t.relabel ρ)) := by
  intro y
  rw [get?_insert, get?_insert, h y]
  by_cases hxy : x = y
  · rw [if_pos hxy, if_pos (congrArg ρ hxy)]
    rfl
  · rw [if_neg hxy, if_neg (ρ.injective.ne hxy)]

/-- Only what the renaming does to the bindings matters. -/
theorem RenamedBy.congr {σ : Equiv.Perm String} (h : s.RenamedBy ρ s')
    (hσ : ∀ x b, s.get? x = some b → σ x = ρ x ∧ b.relabel σ = b.relabel ρ) : s.RenamedBy σ s' := by
  intro x
  cases hx : s.get? x with
  | some b =>
    obtain ⟨hkey, hval⟩ := hσ x b hx
    rw [hkey, h.get?_eq_some hx, Option.map_some, hval]
  | none =>
    -- a binding of `σ x` would come from a binding of another variable that `σ` and `ρ` send there
    have hback := h (ρ.symm (σ x))
    rw [ρ.apply_symm_apply] at hback
    cases hy : s.get? (ρ.symm (σ x)) with
    | none =>
      rw [hback, hy]
      rfl
    | some b =>
      have heq := (hσ _ b hy).1
      rw [ρ.apply_symm_apply] at heq
      rw [σ.injective heq, hx] at hy
      cases hy

theorem RenamedBy.leads (h : s.RenamedBy ρ s') : s'.Leads (ρ x) (ρ y) ↔ s.Leads x y := by
  constructor
  · rintro ⟨b, hb, hy⟩
    rw [h x, Option.map_eq_some_iff] at hb
    obtain ⟨c, hc, rfl⟩ := hb
    obtain ⟨z, hz, heq⟩ := Term.mentions_relabel.mp hy
    obtain rfl := ρ.injective heq
    exact ⟨c, hc, hz⟩
  · rintro ⟨b, hb, hy⟩
    exact ⟨_, h.get?_eq_some hb, Term.mentions_relabel.mpr ⟨y, hy, rfl⟩⟩

/-- Going back along `ρ` leads from `s'` to `s`. -/
theorem RenamedBy.leads_symm (h : s.RenamedBy ρ s') {v w : String} (hvw : s'.Leads v w) :
    s.Leads (ρ.symm v) (ρ.symm w) := by
  rwa [← h.leads, ρ.apply_symm_apply, ρ.apply_symm_apply]

theorem RenamedBy.acyclic (h : s.RenamedBy ρ s') (hs : s.Acyclic) : s'.Acyclic :=
  fun v hv => hs (ρ.symm v) (TransGen.lift ρ.symm (fun _ _ => h.leads_symm) _ _ hv)

theorem RenamedBy.reaches (h : s.RenamedBy ρ s') : ReflTransGen s'.Leads (ρ x) (ρ y) ↔ ReflTransGen s.Leads x y := by
  constructor
  · intro hxy
    have hback : ReflTransGen s.Leads (ρ.symm (ρ x)) (ρ.symm (ρ y)) :=
      ReflTransGen.lift ρ.symm (fun _ _ => h.leads_symm) _ _ hxy
    rwa [ρ.symm_apply_apply, ρ.symm_apply_apply] at hback
  · exact ReflTransGen.lift ρ (fun _ _ => h.leads.mpr) x y

end Chains

/-! ## Following bindings -/

section Application

theorem RenamedBy.value (h : s.RenamedBy ρ s') (hs : s.Acyclic) (x : String) :
    s'.value (ρ x) = (s.value x).relabel ρ := by
  induction hn : s.rank x using Nat.strong_induction_on generalizing x with
  | _ n ih =>
    cases hb : s.get? x with
    | none => rw [value_of_unbound hb, value_of_unbound (h.get?_eq_none hb), Term.relabel_var]
    | some b =>
      rw [value_of_get? hs hb, value_of_get? (h.acyclic hs) (h.get?_eq_some hb), apply_eq_mapVars, apply_eq_mapVars,
        Term.relabel, Term.relabel, Term.mapVars_mapVars, Term.mapVars_mapVars]
      refine Term.mapVars_congr fun y hy => ?_
      rw [Term.mapVars, Term.signed_false, ih (s.rank y) (hn ▸ rank_lt_of_leads hs ⟨b, hb, hy⟩) y rfl]
      rfl

theorem RenamedBy.apply (h : s.RenamedBy ρ s') (hs : s.Acyclic) (t : Term) :
    s'.apply (t.relabel ρ) = (s.apply t).relabel ρ := by
  rw [apply_eq_mapVars, apply_eq_mapVars, Term.relabel, Term.relabel, Term.mapVars_mapVars, Term.mapVars_mapVars]
  refine Term.mapVars_congr fun x _ => ?_
  rw [Term.mapVars, Term.signed_false, h.value hs]
  rfl

theorem RenamedBy.occurs (h : s.RenamedBy ρ s') (hs : s.Acyclic) :
    s'.occurs (ρ x) (t.relabel ρ) = s.occurs x t := by
  rw [Bool.eq_iff_iff, occurs_iff (h.acyclic hs), occurs_iff hs]
  constructor
  · rintro ⟨v, hv, hvx⟩
    obtain ⟨y, hy, rfl⟩ := Term.mentions_relabel.mp hv
    exact ⟨y, hy, h.reaches.mp hvx⟩
  · rintro ⟨y, hy, hyx⟩
    exact ⟨ρ y, Term.mentions_relabel.mpr ⟨y, hy, rfl⟩, h.reaches.mpr hyx⟩

end Application

/-! ## Unification -/

section Unification

open Unify

/-- An equation with its variables renamed. -/
def relabelPair (ρ : String → String) (e : Term × Term) : Term × Term :=
  (e.1.relabel ρ, e.2.relabel ρ)

theorem map_zip_relabel (ρ : String → String) (ts us : List Term) (es : List (Term × Term)) :
    (ts.zip us ++ es).map (relabelPair ρ) =
      (ts.map (Term.relabel ρ)).zip (us.map (Term.relabel ρ)) ++ es.map (relabelPair ρ) := by
  rw [List.map_append, List.zip_map]
  rfl

theorem clashes_relabel (ρ : String → String) (t u : Term) : clashes (t.relabel ρ) (u.relabel ρ) = clashes t u := by
  cases t <;> cases u <;> simp [clashes]

theorem relabel_ne_var (ρ : String → String) (ht : ∀ m y, t ≠ .var m y) : ∀ m y, t.relabel ρ ≠ .var m y := by
  cases t with
  | var n x => exact absurd rfl (ht n x)
  | _ => simp

theorem RenamedBy.bindable (h : s.RenamedBy ρ s') (hb : Bindable s x t) : Bindable s' (ρ x) (t.relabel ρ) := by
  refine ⟨h.get?_eq_none hb.1, fun m y hy => ?_⟩
  cases t with
  | var n z =>
    obtain ⟨hne, hz⟩ := hb.2 n z rfl
    obtain ⟨-, rfl⟩ : n = m ∧ ρ z = y := by simpa using hy
    exact ⟨ρ.injective.ne hne, h.get?_eq_none hz⟩
  | _ => simp at hy

/-- A run on the renamed equations does, step by step, what the run on the equations does. -/
theorem RenamedBy.evaluates {es : List (Term × Term)} {r : Option Subst} (he : Evaluates es s r)
    (h : s.RenamedBy ρ s') (hs : s.Acyclic) :
    ∃ r', Evaluates (es.map (relabelPair ρ)) s' r' ∧ Option.Rel (RenamedBy ρ) r r' := by
  induction he generalizing s' with
  | done s => exact ⟨some s', .done s', .some h⟩
  | lit _ ih =>
    obtain ⟨r', he', hr⟩ := ih h hs
    exact ⟨r', .lit he', hr⟩
  | rel hlen _ ih =>
    obtain ⟨r', he', hr⟩ := ih h hs
    rw [map_zip_relabel] at he'
    refine ⟨r', ?_, hr⟩
    simp only [List.map_cons, relabelPair, Term.relabel_rel]
    exact .rel (by simpa using hlen) he'
  | fn _ ih =>
    obtain ⟨r', he', hr⟩ := ih h hs
    exact ⟨r', .fn he', hr⟩
  | clash hc => exact ⟨none, .clash (by rw [clashes_relabel, hc]), .none⟩
  | same hx _ ih =>
    obtain ⟨r', he', hr⟩ := ih h hs
    refine ⟨r', ?_, hr⟩
    simp only [List.map_cons, relabelPair, Term.relabel_var]
    exact .same (h.get?_eq_none hx) he'
  | opposite hx hnm =>
    refine ⟨none, ?_, .none⟩
    simp only [List.map_cons, relabelPair, Term.relabel_var]
    exact .opposite (h.get?_eq_none hx) hnm
  | @bind n x t es s r hb _ hocc _ ih =>
    have hacyclic : (s.insert x (Term.signed n t)).Acyclic := hs.insert hb.1 (by rwa [occurs_signed])
    obtain ⟨r', he', hr⟩ := ih (h.insert x _) hacyclic
    refine ⟨r', ?_, hr⟩
    simp only [List.map_cons, relabelPair, Term.relabel_var]
    rw [Term.relabel_signed] at he'
    exact .bind (h.bindable hb) (acc_calls (h.acyclic hs) _) (by rw [h.occurs hs, hocc]) he'
  | @circular n x t es s hb _ hocc =>
    refine ⟨none, ?_, .none⟩
    simp only [List.map_cons, relabelPair, Term.relabel_var]
    exact .circular (h.bindable hb) (acc_calls (h.acyclic hs) _) (by rw [h.occurs hs, hocc])
  | follow hx _ ih =>
    obtain ⟨r', he', hr⟩ := ih h hs
    refine ⟨r', ?_, hr⟩
    simp only [List.map_cons, relabelPair, Term.relabel_var, Term.relabel_signed] at he' ⊢
    exact .follow (h.get?_eq_some hx) he'
  | followRight hx hxy hy _ ih =>
    obtain ⟨r', he', hr⟩ := ih h hs
    refine ⟨r', ?_, hr⟩
    simp only [List.map_cons, relabelPair, Term.relabel_var, Term.relabel_signed] at he' ⊢
    exact .followRight (h.get?_eq_none hx) (ρ.injective.ne hxy) (h.get?_eq_some hy) he'
  | turn ht _ ih =>
    obtain ⟨r', he', hr⟩ := ih h hs
    refine ⟨r', ?_, hr⟩
    simp only [List.map_cons, relabelPair, Term.relabel_var] at he' ⊢
    exact .turn (relabel_ne_var ρ ht) he'

/-- Renamed terms unify exactly if the terms do, with renamed results. -/
theorem RenamedBy.unify (h : s.RenamedBy ρ s') (hs : s.Acyclic) (t u : Term) :
    Option.Rel (RenamedBy ρ) (unify t u s) (unify (t.relabel ρ) (u.relabel ρ) s') := by
  obtain ⟨r, he, hr⟩ := RenamedBy.evaluates (evaluates_unify hs t u) h hs
  have hunique := he.unique (evaluates_unify (h.acyclic hs) (t.relabel ρ) (u.relabel ρ))
  rwa [hunique] at hr

end Unification

end Clausal.Subst
