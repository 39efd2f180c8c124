import Clausal.Proofs.ClauseForm.Fresh
import Clausal.Proofs.Term.Formation

/-!
# Clausal.Proofs.ClauseForm.Outline — the outline of a formula

Behind the negation normal form, taking binders apart and dropping quantifiers change atomic formulas and quantifiers
only.  How the rest of the formula is built stays the same.

* `Term.hasEmptyFreeClause`: a free clause without members stands in the formula; the normal form has one exactly if the
  formula has (`hasEmptyFreeClause_nnf`), and else it passes the test for normal forms (`isNnf_nnf`).
* `Term.outline`: the formula without its quantifiers, and with one atom in place of all; `outline_matrix` says that the
  quantifier-free form has the outline of the normal form.
* `isNnf_matrix`, `hasEmptyFreeClause_matrix`, `matrix_eq_nil_iff`: what follows for the quantifier-free form.
-/

namespace Clausal

namespace Term

/-! ## Empty free clauses -/

section EmptyClauses

mutual

/-- A free clause without members stands in the formula; arguments do not count. -/
def hasEmptyFreeClause : Term → Bool
  | .quant _ _ _ t => hasEmptyFreeClause t
  | .conn _ _ l r => hasEmptyFreeClause l || hasEmptyFreeClause r
  | .freeClause _ ts => ts.isEmpty || anyEmptyFreeClause ts
  | _ => false

/-- A free clause without members stands in one of the formulas. -/
def anyEmptyFreeClause : List Term → Bool
  | [] => false
  | t :: ts => hasEmptyFreeClause t || anyEmptyFreeClause ts

end

@[simp] theorem anyEmptyFreeClause_eq_any (ts : List Term) : anyEmptyFreeClause ts = ts.any hasEmptyFreeClause := by
  induction ts with
  | nil => rfl
  | cons t ts ih => rw [anyEmptyFreeClause, ih, List.any_cons]

theorem hasEmptyFreeClause_joinRight (op : Connective) (t : Term) (ts : List Term) :
    (joinRight op t ts).hasEmptyFreeClause = (t :: ts).any hasEmptyFreeClause := by
  induction ts generalizing t with
  | nil => simp [joinRight]
  | cons u us ih => rw [joinRight, hasEmptyFreeClause, ih, List.any_cons (a := t)]

/-- The normal form has an empty free clause exactly if the formula has one. -/
theorem hasEmptyFreeClause_nnf (t : Term) (flip : Bool) : (t.nnf flip).hasEmptyFreeClause = t.hasEmptyFreeClause := by
  induction t using induct generalizing flip with
  | lit n a | var n x | rel n a ts ih | fn n a t ih => cases flip <;> rfl
  | quant n q x t ih =>
    rw [nnf]
    split <;> exact ih _
  | conn n c l r ihl ihr =>
    cases c <;> rw [nnf] <;> split <;> simp only [hasEmptyFreeClause, ihl, ihr] <;>
      cases l.hasEmptyFreeClause <;> cases r.hasEmptyFreeClause <;> rfl
  | freeClause n ts ih =>
    cases ts with
    | nil => rfl
    | cons t ts =>
      have hall : ∀ flip, ((t :: ts).map (nnf flip)).any hasEmptyFreeClause = (t :: ts).any hasEmptyFreeClause := by
        intro flip
        rw [Bool.eq_iff_iff, List.any_map, List.any_eq_true, List.any_eq_true]
        exact exists_congr fun u => and_congr_right fun hu => by rw [Function.comp_apply, ih u hu]
      rw [nnf]
      split
      · rw [hasEmptyFreeClause, anyEmptyFreeClause_eq_any, List.any_cons, hasEmptyFreeClause_joinRight, nnfAll_eq_map,
          ← List.map_cons, hall]
        simp [hasEmptyFreeClause]
      · rw [hasEmptyFreeClause, anyEmptyFreeClause_eq_any, nnfAll_eq_map, ← List.map_cons, hall]
        simp [hasEmptyFreeClause]

end EmptyClauses

/-! ## The test for normal forms -/

section NormalForm

@[simp] theorem isNnfAll_eq_true {ts : List Term} : isNnfAll ts = true ↔ ∀ t ∈ ts, t.isNnf = true := by
  induction ts with
  | nil => simp [isNnfAll]
  | cons t ts ih => simp [isNnfAll, ih]

theorem isNnf_conn {n : Bool} {c : Connective} {l r : Term} :
    (Term.conn n c l r).isNnf = true ↔ n = false ∧ (c = .and ∨ c = .or) ∧ l.isNnf = true ∧ r.isNnf = true := by
  cases c <;> simp [isNnf, and_assoc]

theorem isNnf_freeClause {n : Bool} {ts : List Term} :
    (Term.freeClause n ts).isNnf = true ↔ n = false ∧ ∀ t ∈ ts, t.isNnf = true := by
  simp [isNnf]

theorem isNnf_joinRight {op : Connective} (hop : op = .and ∨ op = .or) {t : Term} {ts : List Term}
    (h : ∀ u ∈ t :: ts, u.isNnf = true) : (joinRight op t ts).isNnf = true :=
  joinRight_of_forall (P := fun u => u.isNnf = true) (fun _ _ hl hr => isNnf_conn.mpr ⟨rfl, hop, hl, hr⟩) h

/-- Where every free clause has a member, the normal form passes the test. -/
theorem isNnf_nnf {t : Term} (h : t.hasEmptyFreeClause = false) (flip : Bool) : (t.nnf flip).isNnf = true := by
  induction t using induct generalizing flip with
  | lit n a | var n x | rel n a ts ih | fn n a t ih => cases flip <;> rfl
  | quant n q x t ih =>
    rw [nnf]
    split <;> exact ih h _
  | conn n c l r ihl ihr =>
    rw [hasEmptyFreeClause, Bool.or_eq_false_iff] at h
    cases c <;> rw [nnf] <;> split <;> simp [isNnf, ihl h.1, ihr h.2]
  | freeClause n ts ih =>
    cases ts with
    | nil => simp [hasEmptyFreeClause] at h
    | cons t ts =>
      have hmem : ∀ u ∈ t :: ts, u.hasEmptyFreeClause = false := by simpa [hasEmptyFreeClause] using h
      have hall : ∀ flip, ∀ u ∈ (t :: ts).map (nnf flip), u.isNnf = true :=
        fun flip => List.forall_mem_map.mpr fun u hu => ih u hu (hmem u hu) flip
      rw [nnf, nnfAll_eq_map, nnfAll_eq_map]
      split
      · exact isNnf_freeClause.mpr ⟨rfl, List.forall_mem_singleton.mpr (isNnf_joinRight (.inr rfl) (hall true))⟩
      · exact isNnf_freeClause.mpr ⟨rfl, hall false⟩

end NormalForm

/-! ## Outlines -/

section Outline

mutual

/-- No quantifier stands in the formula; arguments do not count. -/
def isQuantifierFree : Term → Bool
  | .quant .. => false
  | .conn _ _ l r => isQuantifierFree l && isQuantifierFree r
  | .freeClause _ ts => areQuantifierFree ts
  | _ => true

/-- No quantifier stands in any of the formulas. -/
def areQuantifierFree : List Term → Bool
  | [] => true
  | t :: ts => isQuantifierFree t && areQuantifierFree ts

end

mutual

/-- The formula without its quantifiers, and with one atom in place of all. -/
def outline : Term → Term
  | .quant _ _ _ t => outline t
  | .conn n c l r => .conn n c (outline l) (outline r)
  | .freeClause n ts => .freeClause n (outlines ts)
  | _ => .lit false ""

/-- `outline` member by member. -/
def outlines : List Term → List Term
  | [] => []
  | t :: ts => outline t :: outlines ts

end

@[simp] theorem areQuantifierFree_eq_true {ts : List Term} :
    areQuantifierFree ts = true ↔ ∀ t ∈ ts, t.isQuantifierFree = true := by
  induction ts with
  | nil => simp [areQuantifierFree]
  | cons t ts ih => simp [areQuantifierFree, ih]

@[simp] theorem outlines_eq_map (ts : List Term) : outlines ts = ts.map outline := by
  induction ts with
  | nil => rfl
  | cons t ts ih => rw [outlines, ih, List.map_cons]

theorem isUpright_of_isQuantifierFree {t : Term} (h : t.isQuantifierFree = true) : t.isUpright = true := by
  induction t using induct with
  | lit n a | var n x | rel n a ts ih | fn n a t ih => rfl
  | quant n q x t ih => cases h
  | conn n c l r ihl ihr =>
    rw [isQuantifierFree, Bool.and_eq_true] at h
    rw [isUpright, ihl h.1, ihr h.2, Bool.and_self]
  | freeClause n ts ih =>
    rw [isQuantifierFree, areQuantifierFree_eq_true] at h
    exact areUpright_eq_true.mpr fun t ht => ih t ht (h t ht)

theorem hasEmptyFreeClause_outline (t : Term) : t.outline.hasEmptyFreeClause = t.hasEmptyFreeClause := by
  induction t using induct with
  | lit n a | var n x | rel n a ts ih | fn n a t ih => rfl
  | quant n q x t ih => exact ih
  | conn n c l r ihl ihr => rw [outline, hasEmptyFreeClause, hasEmptyFreeClause, ihl, ihr]
  | freeClause n ts ih =>
    have hany : (ts.map outline).any hasEmptyFreeClause = ts.any hasEmptyFreeClause := by
      rw [Bool.eq_iff_iff, List.any_map, List.any_eq_true, List.any_eq_true]
      exact exists_congr fun t => and_congr_right fun ht => by rw [Function.comp_apply, ih t ht]
    simp only [outline, outlines_eq_map, hasEmptyFreeClause, anyEmptyFreeClause_eq_any, hany, List.isEmpty_map]

theorem isNnf_outline {t : Term} (h : t.isUpright = true) : t.outline.isNnf = t.isNnf := by
  induction t using induct with
  | lit n a | var n x | rel n a ts ih | fn n a t ih => rfl
  | quant n q x t ih =>
    rw [isUpright, Bool.and_eq_true] at h
    rw [outline, ih h.2, isNnf, h.1, Bool.true_and]
  | conn n c l r ihl ihr =>
    rw [isUpright, Bool.and_eq_true] at h
    cases c <;> simp only [outline, isNnf, ihl h.1, ihr h.2]
  | freeClause n ts ih =>
    rw [isUpright, areUpright_eq_true] at h
    rw [Bool.eq_iff_iff, outline, outlines_eq_map, isNnf_freeClause, isNnf_freeClause, List.forall_mem_map]
    exact and_congr_right fun _ => forall₂_congr fun t ht => by rw [ih t ht (h t ht)]

theorem outline_skeleton (t : Term) : t.skeleton.outline = t.outline := by
  induction t using induct with
  | lit n a | var n x | rel n a ts ih | fn n a t ih => rfl
  | quant n q x t ih => exact ih
  | conn n c l r ihl ihr => rw [skeleton, outline, outline, ihl, ihr]
  | freeClause n ts ih =>
    rw [skeleton, outline, outline, skeletons_eq_map, outlines_eq_map, outlines_eq_map, List.map_map]
    exact congrArg _ (List.map_congr_left ih)

/-- A formula whose outline says nothing has no variable that is free. -/
theorem occursFree_of_outline {t : Term} {n : Bool} (h : t.outline = .freeClause n []) (x : String) :
    t.occursFree x = false := by
  induction t using induct with
  | lit _ a | var _ y | rel _ a ts ih | fn _ a t ih | conn _ c l r ihl ihr => cases h
  | quant _ q y t ih =>
    rw [occursFree, ih h]
    exact ite_self false
  | freeClause m ts ih =>
    rw [outline, outlines_eq_map, freeClause.injEq, List.map_eq_nil_iff] at h
    rw [h.2]
    rfl

end Outline

/-! ## Dropping quantifiers -/

section Skolem

variable {env : List (String × Term)}

theorem isAtomic_signed (neg : Bool) (t : Term) : (signed neg t).isAtomic = t.isAtomic := by
  cases neg with
  | false => rfl
  | true => cases t <;> rfl

/-- Every replacement puts an atomic term for a variable. -/
def PutsAtoms (env : List (String × Term)) : Prop :=
  ∀ e ∈ env, e.2.isAtomic = true

theorem PutsAtoms.unshadowed (h : PutsAtoms env) (x : String) : PutsAtoms (unshadowed x env) :=
  fun e he => h e (mem_of_mem_unshadowed he)

theorem PutsAtoms.skolem (h : PutsAtoms env) (names : Names) (enclosing : Option String) (x : String) :
    PutsAtoms (env ++ [(x, (names.skolemTerm enclosing).1)]) := by
  refine List.forall_mem_append.mpr ⟨h, List.forall_mem_singleton.mpr ?_⟩
  cases enclosing <;> rfl

theorem isAtomic_substituteFree {s t : Term} (hs : s.isAtomic = true) (ht : t.isAtomic = true) (x : String) :
    (substituteFree x s t).isAtomic = true := by
  cases t with
  | lit n a | rel n a ts | fn n a t => rfl
  | var n y =>
    rw [substituteFree]
    split
    · rw [isAtomic_signed, hs]
    · rfl
  | _ => cases ht

theorem isAtomic_replaceInTurn (henv : PutsAtoms env) {t : Term} (ht : t.isAtomic = true) :
    (replaceInTurn env t).isAtomic = true := by
  induction env generalizing t with
  | nil => exact ht
  | cons e env ih =>
    obtain ⟨he, henv⟩ := List.forall_mem_cons.mp henv
    exact ih henv (isAtomic_substituteFree he ht e.1)

theorem outline_of_isAtomic {t : Term} (ht : t.isAtomic = true) : t.outline = .lit false "" := by
  cases t with
  | lit n a | var n x | rel n a ts | fn n a t => rfl
  | _ => cases ht

theorem isQuantifierFree_of_isAtomic {t : Term} (ht : t.isAtomic = true) : t.isQuantifierFree = true := by
  cases t with
  | lit n a | var n x | rel n a ts | fn n a t => rfl
  | _ => cases ht

/-- Dropping quantifiers leaves none, and keeps the outline. -/
theorem outline_skolemizeIn (henv : PutsAtoms env) (enclosing : Option String) (names : Names) (t : Term) :
    (skolemizeIn env enclosing names t).1.isQuantifierFree = true ∧
      (skolemizeIn env enclosing names t).1.outline = t.outline := by
  induction t using induct generalizing env enclosing names with
  | lit n a | var n x | rel n a ts ih | fn n a t ih =>
    refine ⟨isQuantifierFree_of_isAtomic ?_, outline_of_isAtomic ?_⟩ <;> exact isAtomic_replaceInTurn henv rfl
  | quant n q x t ih =>
    cases q with
    | «exists» => exact ih ((henv.unshadowed x).skolem names enclosing x) enclosing _
    | «forall» => exact ih (henv.unshadowed x) (some x) names
  | conn n c l r ihl ihr =>
    obtain ⟨hleft, hl⟩ := ihl henv enclosing names
    obtain ⟨hright, hr⟩ := ihr henv enclosing (skolemizeIn env enclosing names l).2
    simp only [skolemizeIn_conn, isQuantifierFree, outline, hleft, hright, hl, hr, Bool.and_self, and_self]
  | freeClause n ts ih =>
    rw [skolemizeIn_freeClause, isQuantifierFree, outline, outline]
    induction ts generalizing names with
    | nil => exact ⟨rfl, rfl⟩
    | cons t ts ihts =>
      obtain ⟨iht, ih⟩ := List.forall_mem_cons.mp ih
      obtain ⟨hfirst, ht⟩ := iht henv enclosing names
      obtain ⟨hrest, hts⟩ := ihts ih (skolemizeIn env enclosing names t).2
      rw [freeClause.injEq] at hts
      simp only [skolemizeAll_cons, areQuantifierFree, outlines, hfirst, hrest, ht, hts.2, Bool.and_self, and_self]

end Skolem

end Term

/-! ## The quantifier-free form -/

namespace Names

open Term

variable {t : Term}

/-- The quantifier-free form has the outline of the normal form. -/
theorem outline_matrix (names : Names) (t : Term) :
    (names.matrix t).1.isQuantifierFree = true ∧ (names.matrix t).1.outline = (t.nnf false).outline := by
  rw [matrix, skolemize, settleQuantifiers_apart]
  obtain ⟨hfree, houtline⟩ := outline_skolemizeIn (List.forall_mem_nil _ : PutsAtoms []) none
    (t.eliminate.toNnf.apart names).2 (t.eliminate.toNnf.apart names).1
  refine ⟨hfree, houtline.trans ?_⟩
  rw [← outline_skeleton, apart, skeleton_apartIn, outline_skeleton, toNnf_eq, nnf_eliminate]

theorem hasEmptyFreeClause_matrix (names : Names) (t : Term) :
    (names.matrix t).1.hasEmptyFreeClause = t.hasEmptyFreeClause := by
  rw [← hasEmptyFreeClause_outline, (names.outline_matrix t).2, hasEmptyFreeClause_outline, hasEmptyFreeClause_nnf]

theorem isNnf_matrix (names : Names) (h : t.hasEmptyFreeClause = false) : (names.matrix t).1.isNnf = true := by
  obtain ⟨hfree, houtline⟩ := names.outline_matrix t
  rw [← isNnf_outline (isUpright_of_isQuantifierFree hfree), houtline, isNnf_outline (isUpright_nnf t false)]
  exact isNnf_nnf h false

/-- Of a well-formed formula nothing is left only if it says nothing: a quantifier around an empty free clause would
bind nothing. -/
theorem matrix_eq_nil_iff (names : Names) (ht : t.WellFormed) (n : Bool) :
    (names.matrix t).1 = .freeClause n [] ↔ t = .freeClause n [] := by
  obtain ⟨hfree, houtline⟩ := names.outline_matrix t
  have hmatrix : (names.matrix t).1 = .freeClause n [] ↔ (t.nnf false).outline = .freeClause n [] := by
    rw [← houtline]
    cases hm : (names.matrix t).1 with
    | quant m q x b =>
      rw [hm] at hfree
      cases hfree
    | freeClause m ts => simp [outline]
    | _ => simp [outline]
  rw [hmatrix]
  cases t with
  | lit m a | var m x | rel m a ts | fn m a t => simp [nnf, signed, outline]
  | conn m c l r => cases c <;> rw [nnf] <;> split <;> simp [outline]
  | freeClause m ts =>
    cases ts with
    | nil => simp [nnf, outline, outlines]
    | cons u us =>
      rw [nnf]
      split <;> simp [outline, outlines]
  | quant m q x b =>
    have hbound := ht.bound m q x b (mem_parts_self _)
    refine iff_of_false (fun hnil => ?_) (by simp)
    obtain ⟨flip, hbody⟩ : ∃ flip, (b.nnf flip).outline = .freeClause n [] := by
      rw [nnf] at hnil
      split at hnil
      · exact ⟨true, hnil⟩
      · exact ⟨false, hnil⟩
    have hfree := occursFree_of_outline hbody x
    rw [occursFree_nnf, hbound] at hfree
    cases hfree

end Names

end Clausal
