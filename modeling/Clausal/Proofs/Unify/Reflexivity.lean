import Clausal.Proofs.Subst.Binders
import Clausal.Proofs.Unify.Evaluation

/-!
# Clausal.Proofs.Unify.Reflexivity — unifying what is equal already

Two terms that stand for the same thing under an acyclic substitution leave nothing to be bound.  Unification still goes
through them, and comes to a formula that is not first-order sooner or later if there is one: there it fails, also if
the two sides are one term.

* `Evaluates.of_apply_eq`: a run on equations whose sides stand for the same things leaves the substitution as it is, or
  fails if one of them is not first-order.
* `unify_of_apply_eq`: what that says of two terms.
* `isFirstOrder_apply_iff`: what a term stands for is first-order just if only atomic terms are met in it, bindings
  followed.
* `unify_self_iff`: the main statement.
-/

namespace Clausal

open Relation

variable {s : Subst} {t u : Term} {es : List (Term × Term)} {r : Option Subst}

/-! ## Equations that hold already -/

namespace Unify

section Settled

/-- Without variables at the root, terms that differ there cannot stand for the same thing, unless they are not
first-order. -/
theorem isFirstOrder_of_clashes (hclash : clashes t u = true) (heq : s.apply t = s.apply u) :
    (s.apply t).isFirstOrder = false := by
  cases t with
  | var n x => cases hclash
  | lit n a =>
    cases u with
    | var m y => cases hclash
    | lit m b =>
      cases heq
      simp [clashes] at hclash
    | _ => cases heq
  | rel n a ts =>
    cases u with
    | var m y => cases hclash
    | rel m b us =>
      simp only [Subst.apply_rel, Term.rel.injEq] at heq
      have hlen : ts.length = us.length := by simpa using congrArg List.length heq.2.2
      simp [clashes, heq.1, heq.2.1, hlen] at hclash
    | _ => cases heq
  | fn n a t =>
    cases u with
    | var m y => cases hclash
    | fn m b u =>
      simp only [Subst.apply_fn, Term.fn.injEq] at heq
      simp [clashes, heq.1, heq.2.1] at hclash
    | _ => cases heq
  | quant n q x t | conn n c l r | freeClause n ts => rfl

theorem apply_var_of_unbound {x : String} (hx : s.get? x = none) (n : Bool) : s.apply (.var n x) = .var n x := by
  rw [Subst.apply_var, Subst.value_of_unbound hx]
  cases n <;> rfl

/-- A variable that would be bound does not stand for the other side yet. -/
theorem Bindable.apply_ne {x : String} (h : Bindable s x t) (n : Bool) : s.apply (.var n x) ≠ s.apply t := by
  rw [apply_var_of_unbound h.1]
  cases t with
  | var m y =>
    obtain ⟨hxy, hy⟩ := h.2 m y rfl
    rw [apply_var_of_unbound hy]
    intro heq
    cases heq
    exact hxy rfl
  | _ => nofun

theorem forall_zip_of_map_eq {f : Term → Term} {ts us : List Term} (h : ts.map f = us.map f) :
    ∀ e ∈ ts.zip us, f e.1 = f e.2 := by
  induction ts generalizing us with
  | nil => simp
  | cons t ts ih =>
    cases us with
    | nil => simp
    | cons u us =>
      obtain ⟨hhead, hrest⟩ := List.cons_eq_cons.mp h
      rw [List.zip_cons_cons, List.forall_mem_cons]
      exact ⟨hhead, ih hrest⟩

theorem all_zip {p : Term → Bool} {ts us : List Term} (hlen : ts.length = us.length) :
    ((ts.zip us).all fun e => p e.1) = ts.all p := by
  have hfst : (ts.zip us).map Prod.fst = ts := List.map_fst_zip (le_of_eq hlen)
  have hmap : (((ts.zip us).map Prod.fst).all p) = (ts.zip us).all fun e => p e.1 := List.all_map
  rw [← hmap, hfst]

theorem areFirstOrder_eq_all (ts : List Term) : Term.areFirstOrder ts = ts.all Term.isFirstOrder := by
  rw [Bool.eq_iff_iff, Term.areFirstOrder_eq_true, List.all_eq_true]

/-- A run on equations that hold already binds nothing.  It ends with the substitution as it is, or fails at the first
equation that is not between first-order terms. -/
theorem Evaluates.of_apply_eq (h : Evaluates es s r) (hs : s.Acyclic) (heq : ∀ e ∈ es, s.apply e.1 = s.apply e.2) :
    r = if (es.all fun e => (s.apply e.1).isFirstOrder) then some s else none := by
  induction h with
  | done s => rfl
  | lit _ ih => exact ih hs (List.forall_mem_cons.mp heq).2
  | @rel n a ts us es s r hlen _ ih =>
    obtain ⟨hhead, hrest⟩ := List.forall_mem_cons.mp heq
    simp only [Subst.apply_rel, Term.rel.injEq, true_and] at hhead
    rw [ih hs (List.forall_mem_append.mpr ⟨forall_zip_of_map_eq hhead, hrest⟩), List.all_append, List.all_cons,
      all_zip hlen (p := fun t => (s.apply t).isFirstOrder), Subst.apply_rel, Term.isFirstOrder, areFirstOrder_eq_all,
      List.all_map]
    rfl
  | fn _ ih =>
    obtain ⟨hhead, hrest⟩ := List.forall_mem_cons.mp heq
    simp only [Subst.apply_fn, Term.fn.injEq, true_and] at hhead
    exact ih hs (List.forall_mem_cons.mpr ⟨hhead, hrest⟩)
  | clash hclash =>
    rw [List.all_cons, isFirstOrder_of_clashes hclash (List.forall_mem_cons.mp heq).1]
    rfl
  | same hx _ ih =>
    rw [ih hs (List.forall_mem_cons.mp heq).2, List.all_cons, apply_var_of_unbound hx]
    rfl
  | @opposite n m x es s hx hnm =>
    have hhead := (List.forall_mem_cons.mp heq).1
    rw [apply_var_of_unbound hx, apply_var_of_unbound hx] at hhead
    cases hhead
    exact absurd rfl hnm
  | bind hb _ _ _ _ => exact absurd (List.forall_mem_cons.mp heq).1 (hb.apply_ne _)
  | circular hb _ _ => exact absurd (List.forall_mem_cons.mp heq).1 (hb.apply_ne _)
  | follow hx _ ih =>
    obtain ⟨hhead, hrest⟩ := List.forall_mem_cons.mp heq
    rw [Subst.apply_var_of_get? hs hx] at hhead
    rw [ih hs (List.forall_mem_cons.mpr ⟨hhead, hrest⟩), List.all_cons, List.all_cons, Subst.apply_var_of_get? hs hx]
  | followRight _ _ hy _ ih =>
    obtain ⟨hhead, hrest⟩ := List.forall_mem_cons.mp heq
    rw [Subst.apply_var_of_get? hs hy] at hhead
    exact ih hs (List.forall_mem_cons.mpr ⟨hhead, hrest⟩)
  | turn _ _ ih =>
    obtain ⟨hhead, hrest⟩ := List.forall_mem_cons.mp heq
    rw [ih hs (List.forall_mem_cons.mpr ⟨hhead.symm, hrest⟩), List.all_cons, List.all_cons, hhead]

end Settled

end Unify

/-- Terms that stand for the same thing unify without new bindings, if that is first-order, and else not at all. -/
theorem unify_of_apply_eq (hs : s.Acyclic) (heq : s.apply t = s.apply u) :
    unify t u s = if (s.apply t).isFirstOrder then some s else none := by
  have hrun := (Unify.evaluates_unify hs t u).of_apply_eq hs (List.forall_mem_singleton.mpr heq)
  rwa [List.all_cons, List.all_nil, Bool.and_true] at hrun

/-! ## Terms that are met -/

namespace Subst

section Met

theorem forall_reached_iff {p : Term → Prop} :
    (∀ u, ReflTransGen s.Calls u t → p u) ↔ p t ∧ ∀ w, s.Calls w t → ∀ u, ReflTransGen s.Calls u w → p u := by
  constructor
  · exact fun h => ⟨h t .refl, fun w hw u hu => h u (hu.tail hw)⟩
  · rintro ⟨hself, hcalls⟩ u hu
    rcases ReflTransGen.cases_tail hu with rfl | ⟨w, hu, hw⟩
    · exact hself
    · exact hcalls w hw u hu

theorem isFirstOrder_iff_children :
    t.isFirstOrder = true ↔ t.isAtomic = true ∧ ∀ u ∈ t.children, u.isFirstOrder = true := by
  cases t with
  | lit n a | var n x | rel n a ts | fn n a t => simp [Term.isFirstOrder, Term.isAtomic, Term.children]
  | quant n q x t | conn n c l r | freeClause n ts => simp [Term.isFirstOrder, Term.isAtomic]

theorem isAtomic_apply (ht : ∀ n x, t ≠ .var n x) (s : Subst) : (s.apply t).isAtomic = t.isAtomic := by
  cases t with
  | var n x => exact absurd rfl (ht n x)
  | _ => rfl

theorem children_apply (ht : ∀ n x, t ≠ .var n x) (s : Subst) : (s.apply t).children = t.children.map s.apply := by
  cases t with
  | var n x => exact absurd rfl (ht n x)
  | lit n a | fn n a t | quant n q x t | conn n c l r => rfl
  | rel n a ts | freeClause n ts =>
    rw [apply_eq_mapVars, Term.mapVars, Term.mapVarsAll_eq_map]
    rfl

/-- What a term stands for is first-order just if only atomic terms are met in it when bindings are followed. -/
theorem isFirstOrder_apply_iff (hs : s.Acyclic) :
    (s.apply t).isFirstOrder = true ↔ ∀ u, ReflTransGen s.Calls u t → u.isAtomic = true := by
  -- along the calls: from a term to its parts, and from a variable to its binding
  induction acc_calls hs t with
  | intro t _ ih =>
    by_cases hvar : ∃ n x, t = .var n x
    · obtain ⟨n, x, rfl⟩ := hvar
      have hatomic : (Term.var n x).isAtomic = true := rfl
      rw [apply_var, Term.isFirstOrder_signed, forall_reached_iff, and_iff_right hatomic]
      simp only [calls_var_iff]
      cases hb : s.get? x with
      | none => simp [value_of_unbound hb, Term.isFirstOrder]
      | some b =>
        rw [value_of_get? hs hb, ih b (.binding hb)]
        simp
    · have ht : ∀ n x, t ≠ .var n x := fun n x heq => hvar ⟨n, x, heq⟩
      rw [isFirstOrder_iff_children, isAtomic_apply ht, children_apply ht, List.forall_mem_map, forall_reached_iff]
      simp only [calls_iff_mem_children ht]
      exact and_congr_right fun _ => forall₂_congr fun u hu => ih u (.part hu)

end Met

end Subst

/-! ## A term and itself -/

section Self

/-- **When unification is reflexive.**  Under an acyclic substitution a term unifies with itself, without new bindings,
just if no quantifier, connective or free clause is met in it when bindings are followed.  Where one is met, unification
fails. -/
theorem unify_self_iff (s : Subst) (hs : s.Acyclic) (t : Term) :
    (unify t t s = some s ↔ ∀ u, ReflTransGen s.Calls u t → u.isAtomic = true) ∧
    (unify t t s = none ↔ ∃ u, ReflTransGen s.Calls u t ∧ u.isAtomic = false) := by
  have hself := unify_of_apply_eq hs (t := t) (u := t) rfl
  have hmet := Subst.isFirstOrder_apply_iff (t := t) hs
  have hsome : unify t t s = some s ↔ (s.apply t).isFirstOrder = true := by
    rw [hself]
    cases (s.apply t).isFirstOrder <;> simp
  have hnone : unify t t s = none ↔ ¬ (s.apply t).isFirstOrder = true := by
    rw [hself]
    cases (s.apply t).isFirstOrder <;> simp
  refine ⟨hsome.trans hmet, hnone.trans ((not_congr hmet).trans ?_)⟩
  simp

/-- `{X ↦ g(¬Y), Z ↦ a ∧ b}`. -/
def conjoined : Subst :=
  (Subst.empty.insert "X" (.fn false "g" (.var true "Y"))).insert "Z" (.and (.const "a") (.const "b"))

theorem acyclic_conjoined : conjoined.Acyclic :=
  (Subst.acyclic_empty.insert (Subst.get?_empty "X") rfl).insert rfl rfl

/-- `p(¬X, a)` meets `g(¬Y)`, and unifies with itself. -/
theorem unify_self_negated_argument :
    conjoined.Acyclic ∧
      unify (.rel false "p" [.var true "X", .const "a"]) (.rel false "p" [.var true "X", .const "a"]) conjoined =
        some conjoined := by
  refine ⟨acyclic_conjoined, (unify_self_iff conjoined acyclic_conjoined _).1.mpr ?_⟩
  exact (Subst.isFirstOrder_apply_iff acyclic_conjoined).mp rfl

/-- The conjunction `a ∧ b` does not unify with itself, nor does a term that it is an argument of, nor a variable that
is bound to it. -/
theorem conjunction_not_unified_with_itself :
    Subst.empty.Acyclic ∧ unify (.and (.const "a") (.const "b")) (.and (.const "a") (.const "b")) .empty = none ∧
      unify (.fn false "f" (.and (.const "a") (.const "b"))) (.fn false "f" (.and (.const "a") (.const "b"))) .empty =
        none ∧
      conjoined.Acyclic ∧ unify (.var false "Z") (.var false "Z") conjoined = none :=
  ⟨Subst.acyclic_empty, rfl, rfl, acyclic_conjoined, rfl⟩

end Self

end Clausal
