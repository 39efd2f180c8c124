import Clausal.Proofs.Subst.Resolved
import Clausal.Proofs.Term.Formation
import Clausal.Proofs.Term.FreeVars

/-!
# Clausal.Proofs.Subst.Binders — substitution below quantifiers

Applying a substitution does not look at binders: below a quantifier over a bound variable, what the quantifier binds is
replaced too, and the quantifier is left without its variable.  This is the only way in which a well-formed term is
spoilt.

* `Term.mapFree`: replacing the free occurrences alone; `mapVars_eq_mapFree_iff` says when replacing all of them is the
  same.
* `Subst.SparesBinders s t`: no quantifier that is met in `t`, bindings followed, binds a bound variable.
* `wellFormed_apply_iff`: then, and only then, the result is well formed.
* `Subst.DiffersAtFree`, `apply_respects_binders_iff`: when a result differs from the term at free occurrences only.
-/

namespace Clausal

/-! ## Free occurrences -/

namespace Term

section MapFree

mutual

/-- Every free occurrence of a variable `x` becomes `f x`, negated where the occurrence is. -/
def mapFree (f : String → Term) : Term → Term
  | .lit n a => .lit n a
  | .var n x => signed n (f x)
  | .rel n a ts => .rel n a (mapFreeAll f ts)
  | .fn n a t => .fn n a (mapFree f t)
  -- below its binder a variable stands for itself
  | .quant n q x t => .quant n q x (mapFree (Function.update f x (.var false x)) t)
  | .conn n c l r => .conn n c (mapFree f l) (mapFree f r)
  | .freeClause n ts => .freeClause n (mapFreeAll f ts)

/-- `mapFree` member by member. -/
def mapFreeAll (f : String → Term) : List Term → List Term
  | [] => []
  | t :: ts => mapFree f t :: mapFreeAll f ts

end

variable {f g : String → Term} {t : Term} {x : String}

theorem mapVarsAll_eq_mapFreeAll_iff {ts : List Term}
    (h : ∀ t ∈ ts, (t.mapVars f = t.mapFree g ↔
      (∀ x, t.occursFree x = true → f x = g x) ∧ ∀ x ∈ t.binderOccurrences, f x = .var false x)) :
    mapVarsAll f ts = mapFreeAll g ts ↔
      (∀ x, occursFreeAny x ts = true → f x = g x) ∧ ∀ x ∈ binderOccurrencesAll ts, f x = .var false x := by
  induction ts with
  | nil => simp [mapVarsAll, mapFreeAll, occursFreeAny, binderOccurrencesAll]
  | cons t ts ih =>
    obtain ⟨ht, hts⟩ := List.forall_mem_cons.mp h
    simp only [mapVarsAll, mapFreeAll, List.cons.injEq, ht, ih hts, occursFreeAny, Bool.or_eq_true,
      binderOccurrencesAll, List.forall_mem_append, or_imp, forall_and]
    exact and_and_and_comm

/-- In a well-formed term, replacing all occurrences is replacing the free ones just if the variables that are bound in
it stand for themselves. -/
theorem mapVars_eq_mapFree_iff (ht : t.WellFormed) :
    t.mapVars f = t.mapFree g ↔
      (∀ x, t.occursFree x = true → f x = g x) ∧ ∀ x ∈ t.binderOccurrences, f x = .var false x := by
  induction t using induct generalizing g with
  | lit n a => simp [mapVars, mapFree, occursFree, binderOccurrences]
  | var n y => simp [mapVars, mapFree, occursFree, binderOccurrences, signed_inj]
  | rel n a ts ih =>
    have hts := (wellFormed_rel.mp ht).2
    simp only [mapVars, mapFree, rel.injEq, true_and, occursFree, binderOccurrences]
    exact mapVarsAll_eq_mapFreeAll_iff fun t hmem => ih t hmem (hts t hmem)
  | freeClause n ts ih =>
    have hts := wellFormed_freeClause.mp ht
    simp only [mapVars, mapFree, freeClause.injEq, true_and, occursFree, binderOccurrences]
    exact mapVarsAll_eq_mapFreeAll_iff fun t hmem => ih t hmem (hts t hmem)
  | fn n a t ih =>
    simp only [mapVars, mapFree, fn.injEq, true_and, occursFree, binderOccurrences]
    exact ih (wellFormed_fn.mp ht)
  | quant n q y t ih =>
    obtain ⟨hy, ht⟩ := wellFormed_quant.mp ht
    simp only [mapVars, mapFree, quant.injEq, true_and, ih ht, binderOccurrences, List.forall_mem_cons]
    rw [← and_assoc]
    refine and_congr_left fun _ => ⟨fun h => ⟨?_, ?_⟩, ?_⟩
    · intro x hx
      obtain ⟨hxy, hfree⟩ : x ≠ y ∧ t.occursFree x = true := by simpa [occursFree] using hx
      rw [h x hfree, Function.update_of_ne hxy]
    · -- the binder occurs free in the body, where it stands for itself
      rw [h y hy, Function.update_self]
    · rintro ⟨hfree, hself⟩ x hx
      by_cases hxy : x = y
      · rw [hxy, Function.update_self, hself]
      · rw [Function.update_of_ne hxy, hfree x (by simpa [occursFree, hxy] using hx)]
  | conn n c l r ihl ihr =>
    obtain ⟨hl, hr⟩ := wellFormed_conn.mp ht
    simp only [mapVars, mapFree, conn.injEq, true_and, ihl hl, ihr hr, occursFree, Bool.or_eq_true, binderOccurrences,
      List.forall_mem_append, or_imp, forall_and]
    exact and_and_and_comm

/-- A variable that stands for itself stays free. -/
theorem occursFree_mapVars_of_self (hx : f x = .var false x) (h : t.occursFree x = true) :
    (t.mapVars f).occursFree x = true := by
  induction t using induct with
  | lit n a => cases h
  | var n y =>
    obtain rfl : x = y := by simpa [occursFree] using h
    rw [mapVars, hx]
    cases n <;> simp [signed, negate, withFlag, occursFree]
  | rel n a ts ih | freeClause n ts ih =>
    rw [occursFree, occursFreeAny_eq_true] at h
    obtain ⟨t, ht, hfree⟩ := h
    rw [mapVars, mapVarsAll_eq_map, occursFree, occursFreeAny_eq_true]
    exact ⟨_, List.mem_map_of_mem ht, ih t ht hfree⟩
  | fn n a t ih => exact ih h
  | quant n q y t ih =>
    obtain ⟨hy, hfree⟩ : x ≠ y ∧ t.occursFree x = true := by simpa [occursFree] using h
    rw [mapVars, occursFree, if_neg (by simpa using hy)]
    exact ih hfree
  | conn n c l r ihl ihr =>
    rw [occursFree, Bool.or_eq_true] at h
    rw [mapVars, occursFree, Bool.or_eq_true]
    exact h.imp ihl ihr

end MapFree

end Term

/-! ## Quantifiers that are met -/

namespace Subst

variable {s : Subst} {t u : Term} {x : String}

section Met

/-- Applying `s` to `t` comes to a quantifier over `x`. -/
def MeetsBinder (s : Subst) (x : String) (t : Term) : Prop :=
  ∃ n q b, Relation.ReflTransGen s.Calls (.quant n q x b) t

/-- No quantifier over a bound variable is met. -/
def SparesBinders (s : Subst) (t : Term) : Prop :=
  ∀ x, s.MeetsBinder x t → s.get? x = none

theorem meetsBinder_iff :
    s.MeetsBinder x t ↔ (∃ n q b, t = .quant n q x b) ∨ ∃ u, s.Calls u t ∧ s.MeetsBinder x u := by
  constructor
  · rintro ⟨n, q, b, h⟩
    rcases Relation.ReflTransGen.cases_tail h with rfl | ⟨u, hu, hcall⟩
    · exact .inl ⟨n, q, b, rfl⟩
    · exact .inr ⟨u, hcall, n, q, b, hu⟩
  · rintro (⟨n, q, b, rfl⟩ | ⟨u, hcall, n, q, b, hu⟩)
    · exact ⟨n, q, b, .refl⟩
    · exact ⟨n, q, b, hu.tail hcall⟩

theorem sparesBinders_iff :
    s.SparesBinders t ↔ (∀ n q x b, t = .quant n q x b → s.get? x = none) ∧ ∀ u, s.Calls u t → s.SparesBinders u := by
  constructor
  · intro h
    refine ⟨fun n q x b ht => h x (meetsBinder_iff.mpr (.inl ⟨n, q, b, ht⟩)), fun u hu x hx => ?_⟩
    exact h x (meetsBinder_iff.mpr (.inr ⟨u, hu, hx⟩))
  · rintro ⟨hself, hcalls⟩ x hx
    rcases meetsBinder_iff.mp hx with ⟨n, q, b, ht⟩ | ⟨u, hu, hx⟩
    · exact hself n q x b ht
    · exact hcalls u hu x hx

theorem calls_var_iff {n : Bool} : s.Calls u (.var n x) ↔ s.get? x = some u := by
  constructor
  · rintro (hu | hb)
    · cases hu
    · exact hb
  · exact .binding

theorem calls_iff_mem_children (ht : ∀ n x, t ≠ .var n x) : s.Calls u t ↔ u ∈ t.children := by
  constructor
  · rintro (hu | hb)
    · exact hu
    · exact absurd rfl (ht _ _)
  · exact .part

/-- Only a quantifier binds, and only a variable calls for more than its parts. -/
theorem sparesBinders_iff_children (hvar : ∀ n x, t ≠ .var n x) (hquant : ∀ n q x b, t ≠ .quant n q x b) :
    s.SparesBinders t ↔ ∀ u ∈ t.children, s.SparesBinders u := by
  rw [sparesBinders_iff]
  simp only [calls_iff_mem_children hvar]
  exact and_iff_right fun n q x b ht => absurd ht (hquant n q x b)

theorem sparesBinders_var {n : Bool} : s.SparesBinders (.var n x) ↔ ∀ b, s.get? x = some b → s.SparesBinders b := by
  rw [sparesBinders_iff]
  simp only [calls_var_iff]
  exact and_iff_right fun _ _ _ _ ht => by cases ht

theorem sparesBinders_quant {n : Bool} {q : Quant} {b : Term} :
    s.SparesBinders (.quant n q x b) ↔ s.get? x = none ∧ s.SparesBinders b := by
  rw [sparesBinders_iff]
  refine and_congr ⟨fun h => h n q x b rfl, ?_⟩ ?_
  · rintro h _ _ _ _ ⟨⟩
    exact h
  · simp only [calls_iff_mem_children (t := .quant n q x b) (by simp), Term.children, List.forall_mem_singleton]

/-- The binders of the term itself are met. -/
theorem SparesBinders.unbound (h : s.SparesBinders t) : ∀ x ∈ t.binderOccurrences, s.get? x = none := by
  induction t using Term.induct with
  | lit n a | var n y => exact List.forall_mem_nil _
  | rel n a ts ih | freeClause n ts ih =>
    intro x hx
    obtain ⟨t, ht, hx⟩ := Term.mem_binderOccurrencesAll.mp hx
    exact ih t ht ((sparesBinders_iff_children (by simp) (by simp)).mp h t ht) x hx
  | fn n a t ih => exact ih ((sparesBinders_iff_children (by simp) (by simp)).mp h t List.mem_cons_self)
  | quant n q y t ih =>
    obtain ⟨hy, hbody⟩ := sparesBinders_quant.mp h
    exact List.forall_mem_cons.mpr ⟨hy, ih hbody⟩
  | conn n c l r ihl ihr =>
    have hparts := (sparesBinders_iff_children (by simp) (by simp)).mp h
    exact List.forall_mem_append.mpr ⟨ihl (hparts l List.mem_cons_self), ihr (hparts r (by simp [Term.children]))⟩

end Met

/-! ## Well-formed results -/

section Results

theorem value_eq_var_iff (hs : s.Acyclic) : s.value x = .var false x ↔ s.get? x = none := by
  constructor
  · intro h
    exact unbound_of_mentions_value hs (y := x) (by simp [h, Term.mentions])
  · exact value_of_unbound

/-- A variable is left in the result where it was free just if it is not bound. -/
theorem occursFree_apply_iff (hs : s.Acyclic) (h : t.occursFree x = true) :
    (s.apply t).occursFree x = true ↔ s.get? x = none := by
  constructor
  · -- nothing that was put in mentions a bound variable, so none can come back
    exact fun hx => unbound_of_mentions_apply hs (Term.mentions_of_occursFree hx)
  · exact fun hx => Term.occursFree_mapVars_of_self (value_of_unbound hx) h

/-- A well-formed term with well-formed bindings stays so just if no quantifier over a bound variable is met. -/
theorem wellFormed_apply_iff (hs : s.Acyclic) (hbindings : ∀ x b, s.get? x = some b → b.WellFormed)
    (ht : t.WellFormed) : (s.apply t).WellFormed ↔ s.SparesBinders t := by
  -- along the calls: from a term to its parts, and from a variable to its binding
  induction acc_calls hs t with
  | intro t _ ih =>
    cases t with
    | lit n a => simp [sparesBinders_iff_children, Term.children]
    | var n x =>
      rw [apply_var, Term.wellFormed_signed, sparesBinders_var]
      cases hb : s.get? x with
      | none => simp [value_of_unbound hb]
      | some b => simpa [value_of_get? hs hb] using ih b (.binding hb) (hbindings x b hb)
    | rel n a ts =>
      obtain ⟨hne, hts⟩ := Term.wellFormed_rel.mp ht
      rw [apply_rel, Term.wellFormed_rel, List.forall_mem_map, sparesBinders_iff_children (by simp) (by simp)]
      rw [and_iff_right (by simpa using hne)]
      exact forall₂_congr fun u hu => ih u (.part hu) (hts u hu)
    | fn n a b =>
      rw [apply_fn, Term.wellFormed_fn, sparesBinders_iff_children (by simp) (by simp), Term.children,
        List.forall_mem_singleton]
      exact ih b (.part List.mem_cons_self) (Term.wellFormed_fn.mp ht)
    | quant n q x b =>
      obtain ⟨hx, hbody⟩ := Term.wellFormed_quant.mp ht
      rw [sparesBinders_quant]
      refine Term.wellFormed_quant.trans (and_congr (occursFree_apply_iff hs hx) ?_)
      exact ih b (.part List.mem_cons_self) hbody
    | conn n c l r =>
      obtain ⟨hl, hr⟩ := Term.wellFormed_conn.mp ht
      rw [sparesBinders_iff_children (by simp) (by simp), Term.children, List.forall_mem_cons, List.forall_mem_singleton]
      refine Term.wellFormed_conn.trans (and_congr ?_ ?_)
      · exact ih l (.part List.mem_cons_self) hl
      · exact ih r (.part (by simp [Term.children])) hr
    | freeClause n ts =>
      have hts := Term.wellFormed_freeClause.mp ht
      rw [apply_eq_mapVars, Term.mapVars, Term.mapVarsAll_eq_map, Term.wellFormed_freeClause, List.forall_mem_map,
        sparesBinders_iff_children (by simp) (by simp)]
      exact forall₂_congr fun u hu => ih u (.part hu) (hts u hu)

/-- The term `u` is `t` with some free occurrences of variables that `s` binds replaced, and nothing else changed. -/
def DiffersAtFree (s : Subst) (t u : Term) : Prop :=
  ∃ f : String → Term, (∀ x, s.get? x = none → f x = .var false x) ∧ u = t.mapFree f

theorem differsAtFree_apply_iff (hs : s.Acyclic) (ht : t.WellFormed) :
    s.DiffersAtFree t (s.apply t) ↔ ∀ x ∈ t.binderOccurrences, s.get? x = none := by
  constructor
  · rintro ⟨f, -, h⟩ x hx
    exact (value_eq_var_iff hs).mp (((Term.mapVars_eq_mapFree_iff ht).mp h).2 x hx)
  · intro h
    refine ⟨s.value, fun x => value_of_unbound, ?_⟩
    exact (Term.mapVars_eq_mapFree_iff ht).mpr ⟨fun _ _ => rfl, fun x hx => value_of_unbound (h x hx)⟩

/-- A well-formed term without free variables that are bound stays as it is, if its binders are not bound either. -/
theorem apply_of_unbound_freeVars (hbinders : ∀ x ∈ t.binderOccurrences, s.get? x = none)
    (hfree : ∀ x, t.occursFree x = true → s.get? x = none) : s.apply t = t := by
  refine apply_of_unbound fun x hx => ?_
  rcases Term.occursFree_or_mem_binderOccurrences hx with h | h
  · exact hfree x h
  · exact hbinders x h

/-- Applying an acyclic substitution with well-formed bindings to a well-formed term respects its binders just if no
quantifier over a bound variable is met on the way.  The result is well formed in this case only; and it differs from
the term at free occurrences of bound variables only, just if no binder of the term itself is bound. -/
theorem apply_respects_binders_iff (s : Subst) (t : Term) (hs : s.Acyclic)
    (hbindings : ∀ x b, s.get? x = some b → b.WellFormed) (ht : t.WellFormed) :
    ((s.apply t).WellFormed ∧ s.DiffersAtFree t (s.apply t) ∧
        ((∀ x, t.occursFree x = true → s.get? x = none) → s.apply t = t) ↔ s.SparesBinders t) ∧
      ((s.apply t).WellFormed ↔ s.SparesBinders t) ∧
      (s.DiffersAtFree t (s.apply t) ↔ ∀ x ∈ t.binderOccurrences, s.get? x = none) := by
  have hwell := wellFormed_apply_iff hs hbindings ht
  have hdiffers := differsAtFree_apply_iff hs ht
  refine ⟨⟨fun h => hwell.mp h.1, fun h => ?_⟩, hwell, hdiffers⟩
  exact ⟨hwell.mpr h, hdiffers.mpr h.unbound, apply_of_unbound_freeVars h.unbound⟩

/-- `∀x p(args)`. -/
def everyP (x : String) (args : List Term) : Term :=
  .quant false .forall x (.rel false "p" args)

/-- `{X ↦ a}`. -/
def bindX : Subst :=
  empty.insert "X" (.lit false "a")

theorem get?_bindX (x : String) : bindX.get? x = if "X" = x then some (.lit false "a") else none := by
  rw [bindX, get?_insert, get?_empty]

theorem acyclic_bindX : bindX.Acyclic :=
  acyclic_empty.insert (get?_empty "X") rfl

theorem wellFormed_of_get?_bindX (x : String) (b : Term) (h : bindX.get? x = some b) : b.WellFormed := by
  rw [get?_bindX] at h
  split at h
  · cases h
    exact Term.wellFormed_lit
  · cases h

/-- `∀Y p(X, Y)` under `{X ↦ a}` is `∀Y p(a, Y)`. -/
theorem apply_respects_other_binder :
    bindX.Acyclic ∧ (∀ x b, bindX.get? x = some b → b.WellFormed) ∧
      (everyP "Y" [.var false "X", .var false "Y"]).WellFormed ∧
      (everyP "Y" [.lit false "a", .var false "Y"]).WellFormed ∧
      bindX.DiffersAtFree (everyP "Y" [.var false "X", .var false "Y"])
        (everyP "Y" [.lit false "a", .var false "Y"]) := by
  have ht : (everyP "Y" [.var false "X", .var false "Y"]).WellFormed := Term.check_eq_ok_iff.mp rfl
  have hresult : (everyP "Y" [.lit false "a", .var false "Y"]).WellFormed := Term.check_eq_ok_iff.mp rfl
  have happly : bindX.apply (everyP "Y" [.var false "X", .var false "Y"]) =
      everyP "Y" [.lit false "a", .var false "Y"] := by rfl
  have hiff := apply_respects_binders_iff bindX _ acyclic_bindX wellFormed_of_get?_bindX ht
  rw [happly] at hiff
  obtain ⟨-, hdiffers, -⟩ := hiff.1.mpr (hiff.2.1.mp hresult)
  exact ⟨acyclic_bindX, wellFormed_of_get?_bindX, ht, hresult, hdiffers⟩

/-- `∀X p(X)` has no free variable, and becomes `∀X p(a)` under `{X ↦ a}`, which is ill formed. -/
theorem apply_spoils_binder :
    bindX.Acyclic ∧ (∀ x b, bindX.get? x = some b → b.WellFormed) ∧
      (everyP "X" [.var false "X"]).WellFormed ∧
      (∀ x, (everyP "X" [.var false "X"]).occursFree x = false) ∧
      bindX.apply (everyP "X" [.var false "X"]) = everyP "X" [.lit false "a"] ∧
      ¬ (everyP "X" [.lit false "a"]).WellFormed ∧
      ¬ bindX.DiffersAtFree (everyP "X" [.var false "X"]) (everyP "X" [.lit false "a"]) := by
  have ht : (everyP "X" [.var false "X"]).WellFormed := Term.check_eq_ok_iff.mp rfl
  have happly : bindX.apply (everyP "X" [.var false "X"]) = everyP "X" [.lit false "a"] := by rfl
  have hbound : bindX.get? "X" ≠ none := by simp [get?_bindX]
  refine ⟨acyclic_bindX, wellFormed_of_get?_bindX, ht, ?_, happly, ?_, ?_⟩
  · intro x
    by_cases hx : x = "X" <;> simp [everyP, Term.occursFree, Term.occursFreeAny, hx]
  · rw [← happly, wellFormed_apply_iff acyclic_bindX wellFormed_of_get?_bindX ht, everyP, sparesBinders_quant]
    exact fun h => hbound h.1
  · rw [← happly, differsAtFree_apply_iff acyclic_bindX ht]
    exact fun h => hbound (h "X" List.mem_cons_self)

end Results

end Subst

end Clausal
