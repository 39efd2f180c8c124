import Mathlib.Data.Set.Function
import Clausal.Proofs.ClauseForm.Renaming

/-!
# Clausal.Proofs.Term.Relabel — renaming the variables of a term

* `Term.relabel ρ t`: `t` with `ρ x` for every variable `x`, the signs of the occurrences kept.
* `relabel_inj`: a renaming that keeps the variables of two terms apart keeps the terms apart; `same_relabel` says so of
  equality up to the signs of variables.
* `renameAll_eq_relabel`: without binders, a new name for one variable is a renaming.
-/

namespace Clausal.Term

variable {ρ σ : String → String} {t u : Term} {x : String}

/-- The term with its variables renamed. -/
def relabel (ρ : String → String) (t : Term) : Term :=
  t.mapVars fun x => .var false (ρ x)

section Structure

@[simp] theorem relabel_lit (ρ : String → String) (n : Bool) (a : String) : (lit n a).relabel ρ = lit n a := rfl

@[simp] theorem relabel_var (ρ : String → String) (n : Bool) (x : String) : (var n x).relabel ρ = var n (ρ x) := by
  cases n <;> rfl

@[simp] theorem relabel_rel (ρ : String → String) (n : Bool) (a : String) (ts : List Term) :
    (rel n a ts).relabel ρ = rel n a (ts.map (relabel ρ)) := by
  rw [relabel, mapVars, mapVarsAll_eq_map]
  rfl

@[simp] theorem relabel_fn (ρ : String → String) (n : Bool) (a : String) (t : Term) :
    (fn n a t).relabel ρ = fn n a (t.relabel ρ) := rfl

@[simp] theorem relabel_quant (ρ : String → String) (n : Bool) (q : Quant) (x : String) (t : Term) :
    (quant n q x t).relabel ρ = quant n q x (t.relabel ρ) := rfl

@[simp] theorem relabel_conn (ρ : String → String) (n : Bool) (c : Connective) (l r : Term) :
    (conn n c l r).relabel ρ = conn n c (l.relabel ρ) (r.relabel ρ) := rfl

@[simp] theorem relabel_freeClause (ρ : String → String) (n : Bool) (ts : List Term) :
    (freeClause n ts).relabel ρ = freeClause n (ts.map (relabel ρ)) := by
  rw [relabel, mapVars, mapVarsAll_eq_map]
  rfl

@[simp] theorem relabel_signed (ρ : String → String) (n : Bool) (t : Term) :
    (signed n t).relabel ρ = signed n (t.relabel ρ) :=
  mapVars_signed _ n t

@[simp] theorem relabel_id (t : Term) : t.relabel id = t :=
  mapVars_var t

theorem relabel_relabel (ρ σ : String → String) (t : Term) : (t.relabel ρ).relabel σ = t.relabel (σ ∘ ρ) :=
  mapVars_mapVars _ _ t

theorem relabel_congr (h : ∀ x, t.mentions x = true → ρ x = σ x) : t.relabel ρ = t.relabel σ :=
  mapVars_congr fun x hx => by rw [h x hx]

theorem mentions_relabel : (t.relabel ρ).mentions x = true ↔ ∃ y, t.mentions y = true ∧ x = ρ y := by
  rw [relabel, mentions_mapVars]
  exact exists_congr fun y => and_congr_right fun _ => by simp [mentions]

end Structure

section Shape

@[simp] theorem isArgument_relabel (ρ : String → String) (t : Term) : (t.relabel ρ).isArgument = t.isArgument := by
  induction t using induct with
  | lit n a => rfl
  | var n x => rw [relabel_var, isArgument, isArgument]
  | rel n a ts ih => rw [relabel_rel, isArgument, isArgument, areArguments_map ih]
  | fn n a t ih => rw [relabel_fn, isArgument, isArgument, ih]
  | quant n q x t ih | conn n c l r ihl ihr | freeClause n ts ih => rfl

@[simp] theorem isLiteral_relabel (ρ : String → String) (t : Term) : (t.relabel ρ).isLiteral = t.isLiteral := by
  cases t with
  | lit n a => rfl
  | var n x => rw [relabel_var]; rfl
  | rel n a ts =>
    rw [relabel_rel, isLiteral, isLiteral]
    exact areArguments_map fun t _ => isArgument_relabel ρ t
  | fn n a t => exact isArgument_relabel ρ t
  | quant n q x t | conn n c l r | freeClause n ts => rfl

end Shape

section Injectivity

/-- Two terms whose variables a renaming tells apart are the same if they are so after it. -/
theorem relabel_inj {X : Set String} (hρ : Set.InjOn ρ X) (ht : ∀ x, t.mentions x = true → x ∈ X)
    (hu : ∀ x, u.mentions x = true → x ∈ X) (h : t.relabel ρ = u.relabel ρ) : t = u := by
  have hback : ∀ w : Term, (∀ x, w.mentions x = true → x ∈ X) →
      (w.relabel ρ).relabel (Function.invFunOn ρ X) = w := by
    intro w hw
    have hid : w.relabel (Function.invFunOn ρ X ∘ ρ) = w.relabel id :=
      relabel_congr fun x hx => hρ.leftInvOn_invFunOn (hw x hx)
    rw [relabel_relabel, hid, relabel_id]
  rw [← hback t ht, h, hback u hu]

theorem sameAll_relabel {ts us : List Term}
    (ih : ∀ t ∈ ts, ∀ u, (t.relabel ρ).same (u.relabel ρ) = t.same u) :
    sameAll (ts.map (relabel ρ)) (us.map (relabel ρ)) = sameAll ts us := by
  induction ts generalizing us with
  | nil => cases us <;> rfl
  | cons t ts ihts =>
    obtain ⟨ht, hts⟩ := List.forall_mem_cons.mp ih
    cases us with
    | nil => rfl
    | cons u us => rw [List.map_cons, List.map_cons, sameAll, sameAll, ht, ihts hts]

/-- A renaming that keeps names apart neither makes nor breaks an equality of terms. -/
theorem same_relabel (hρ : Function.Injective ρ) (t u : Term) : (t.relabel ρ).same (u.relabel ρ) = t.same u := by
  induction t using induct generalizing u with
  | lit n a => cases u <;> simp [same]
  | var n x => cases u <;> simp [same, hρ.eq_iff]
  | rel n a ts ih | freeClause n ts ih => cases u <;> simp [same, sameAll_relabel ih]
  | fn n a t ih | quant n q x t ih => cases u <;> simp [same, ih]
  | conn n c l r ihl ihr => cases u <;> simp [same, ihl, ihr]

end Injectivity

section Renaming

variable {y : String}

theorem binderOccurrences_of_mem {ts : List Term} (hts : binderOccurrencesAll ts = []) (ht : t ∈ ts) :
    t.binderOccurrences = [] := by
  refine List.eq_nil_iff_forall_not_mem.mpr fun z hz => ?_
  have hmem := mem_binderOccurrencesAll.mpr ⟨t, ht, hz⟩
  rw [hts] at hmem
  cases hmem

/-- Without binders, a new name for one variable everywhere is a renaming. -/
theorem renameAll_eq_relabel (ht : t.binderOccurrences = []) : t.renameAll x y = t.relabel (rename x y) := by
  induction t using induct with
  | lit n a => rfl
  | var n z =>
    rw [relabel_var]
    rfl
  | rel n a ts ih =>
    rw [renameAll, renameAllIn_eq_map, relabel_rel]
    congr 1
    exact List.map_congr_left fun t hmem => ih t hmem (binderOccurrences_of_mem ht hmem)
  | fn n a t ih => rw [renameAll, ih ht, relabel_fn]
  | quant n q z t ih => cases ht
  | conn n c l r ihl ihr =>
    obtain ⟨hl, hr⟩ := List.append_eq_nil_iff.mp ht
    rw [renameAll, ihl hl, ihr hr, relabel_conn]
  | freeClause n ts ih =>
    rw [renameAll, renameAllIn_eq_map, relabel_freeClause]
    congr 1
    exact List.map_congr_left fun t hmem => ih t hmem (binderOccurrences_of_mem ht hmem)

theorem renameBound_of_no_binders (ht : t.binderOccurrences = []) : t.renameBound x y = t := by
  induction t using induct with
  | lit n a | var n z => rfl
  | rel n a ts ih | freeClause n ts ih =>
    rw [renameBound, renameBoundIn_eq_map,
      List.map_congr_left fun t hmem => ih t hmem (binderOccurrences_of_mem ht hmem), List.map_id']
  | fn n a t ih => rw [renameBound, ih ht]
  | quant n q z t ih => cases ht
  | conn n c l r ihl ihr =>
    obtain ⟨hl, hr⟩ := List.append_eq_nil_iff.mp ht
    rw [renameBound, ihl hl, ihr hr]

end Renaming

end Clausal.Term
