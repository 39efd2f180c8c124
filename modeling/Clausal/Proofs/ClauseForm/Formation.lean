import Clausal.Proofs.ClauseForm.Capture
import Clausal.Proofs.ClauseForm.Outline
import Clausal.Proofs.ClauseForm.Standardization
import Clausal.Proofs.Json.RoundTrip

/-!
# Clausal.Proofs.ClauseForm.Formation — the passes keep formulas well formed

The passes put quantifiers together without a check.  They can, because what each of them puts below a quantifier still
has its variable free.

* `WellFormed.eliminate`, `WellFormed.nnf`: the passes on the connectives keep all free variables.
* `AlphaEquiv.wellFormed_iff`: whether a binder is used can be told without its name, so taking binders apart makes no
  difference to it.
* `WellFormed.skolemizeIn`: a replacement inside of an argument leaves the other variables where they are.
* `WellFormed.flatten`, `WellFormed.statements`: taking free clauses out.
* `Stage`, `passes_keep_formation`: what the passes give, one after the other.
-/

namespace Clausal

/-! ## Connectives -/

namespace Term

section Connectives

variable {t : Term}

theorem WellFormed.eliminate (h : t.WellFormed) : t.eliminate.WellFormed := by
  induction t using induct with
  | lit n a | var n x | rel n a ts ih | fn n a t ih => exact h
  | quant n q x t ih =>
    obtain ⟨hx, ht⟩ := wellFormed_quant.mp h
    exact wellFormed_quant.mpr ⟨by rwa [occursFree_eliminate], ih ht⟩
  | conn n c l r ihl ihr =>
    obtain ⟨hl, hr⟩ := wellFormed_conn.mp h
    cases c <;> simp [Term.eliminate, ihl hl, ihr hr]
  | freeClause n ts ih =>
    rw [wellFormed_freeClause] at h
    rw [Term.eliminate, eliminateAll_eq_map, wellFormed_freeClause, List.forall_mem_map]
    exact fun t ht => ih t ht (h t ht)

theorem wellFormed_joinRight (op : Connective) {ts : List Term} (h : ∀ u ∈ t :: ts, u.WellFormed) :
    (joinRight op t ts).WellFormed :=
  joinRight_of_forall (fun _ _ hl hr => wellFormed_conn.mpr ⟨hl, hr⟩) h

theorem WellFormed.nnf (h : t.WellFormed) (flip : Bool) : (t.nnf flip).WellFormed := by
  induction t using induct generalizing flip with
  | lit n a | var n x | rel n a ts ih | fn n a t ih => exact wellFormed_signed.mpr h
  | quant n q x t ih =>
    obtain ⟨hx, ht⟩ := wellFormed_quant.mp h
    rw [Term.nnf]
    split <;> exact wellFormed_quant.mpr ⟨by rwa [occursFree_nnf], ih ht _⟩
  | conn n c l r ihl ihr =>
    obtain ⟨hl, hr⟩ := wellFormed_conn.mp h
    cases c <;> rw [Term.nnf] <;> split <;> simp [ihl hl, ihr hr]
  | freeClause n ts ih =>
    rw [wellFormed_freeClause] at h
    cases ts with
    | nil => simp [Term.nnf]
    | cons t ts =>
      have hmembers : ∀ flip, ∀ u ∈ t.nnf flip :: nnfAll flip ts, u.WellFormed := by
        intro flip
        rw [nnfAll_eq_map, ← List.map_cons, List.forall_mem_map]
        exact fun u hu => ih u hu (h u hu) flip
      rw [Term.nnf]
      split
      · exact wellFormed_freeClause.mpr (List.forall_mem_singleton.mpr (wellFormed_joinRight .or (hmembers true)))
      · exact wellFormed_freeClause.mpr (hmembers false)

theorem WellFormed.toNnf (h : t.WellFormed) : t.toNnf.WellFormed :=
  toNnf_eq t ▸ h.nnf false

end Connectives

end Term

/-! ## Binders without names -/

section Nameless

mutual

/-- Some variable refers to the binder that `i` binders around the term separate from it. -/
def Nameless.refersTo (i : Nat) : Nameless → Bool
  | .lit .. | .free .. => false
  | .bound _ j => i == j
  | .rel _ _ ts | .freeClause _ ts => refersToAny i ts
  | .fn _ _ t => refersTo i t
  | .quant _ _ t => refersTo (i + 1) t
  | .conn _ _ l r => refersTo i l || refersTo i r

/-- The same for one of the terms. -/
def Nameless.refersToAny (i : Nat) : List Nameless → Bool
  | [] => false
  | t :: ts => refersTo i t || refersToAny i ts

end

mutual

/-- Every relation has an argument, and some variable refers to every binder. -/
def Nameless.isWellFormed : Nameless → Bool
  | .lit .. | .free .. | .bound .. => true
  | .rel _ _ ts => !ts.isEmpty && areWellFormed ts
  | .fn _ _ t => isWellFormed t
  | .quant _ _ t => refersTo 0 t && isWellFormed t
  | .conn _ _ l r => isWellFormed l && isWellFormed r
  | .freeClause _ ts => areWellFormed ts

/-- The same for each of the terms. -/
def Nameless.areWellFormed : List Nameless → Bool
  | [] => true
  | t :: ts => isWellFormed t && areWellFormed ts

end

theorem Nameless.refersToAny_eq_any (i : Nat) (ts : List Nameless) : refersToAny i ts = ts.any (refersTo i) := by
  induction ts with
  | nil => rfl
  | cons t ts ih => rw [refersToAny, ih, List.any_cons]

theorem Nameless.areWellFormed_eq_all (ts : List Nameless) : areWellFormed ts = ts.all isWellFormed := by
  induction ts with
  | nil => rfl
  | cons t ts ih => rw [areWellFormed, ih, List.all_cons]

namespace Term

variable {t u : Term} {scope : List String} {i : Nat} {x y : String}

theorem idxOf?_cons_eq_succ : (y :: scope).idxOf? x = some (i + 1) ↔ y ≠ x ∧ scope.idxOf? x = some i := by
  rw [List.idxOf?_cons]
  by_cases hyx : y = x
  · simp [hyx]
  · simp [hyx]

theorem idxOf?_cons_eq_zero : (y :: scope).idxOf? x = some 0 ↔ x = y := by
  rw [List.idxOf?_cons]
  by_cases hyx : y = x
  · simp [hyx]
  · simp [hyx, Ne.symm hyx]

/-- A binder of the scope is referred to where its name occurs free. -/
theorem refersTo_nameless :
    (t.nameless scope).refersTo i = true ↔ ∃ x, scope.idxOf? x = some i ∧ t.occursFree x = true := by
  induction t using induct generalizing scope i with
  | lit n a => simp [nameless, Nameless.refersTo, occursFree]
  | var n y =>
    rw [nameless, refer]
    cases hy : scope.idxOf? y with
    | none => simp [Nameless.refersTo, occursFree, hy]
    | some j =>
      simp only [Nameless.refersTo, occursFree, beq_iff_eq, exists_eq_right, hy, Option.some.injEq]
      exact eq_comm
  | rel n a ts ih | freeClause n ts ih =>
    rw [nameless, Nameless.refersTo, Nameless.refersToAny_eq_any, namelessAll_eq_map, List.any_map, List.any_eq_true]
    simp only [Function.comp_apply, occursFree, occursFreeAny_eq_true]
    constructor
    · rintro ⟨t, ht, hrefers⟩
      obtain ⟨x, hx, hfree⟩ := (ih t ht).mp hrefers
      exact ⟨x, hx, t, ht, hfree⟩
    · rintro ⟨x, hx, t, ht, hfree⟩
      exact ⟨t, ht, (ih t ht).mpr ⟨x, hx, hfree⟩⟩
  | fn n a t ih => exact ih
  | quant n q y t ih =>
    -- one binder further in, and not the one that hides its own name
    rw [nameless, Nameless.refersTo, ih]
    refine exists_congr fun x => ?_
    rw [idxOf?_cons_eq_succ]
    by_cases hyx : y = x
    · simp [occursFree, hyx]
    · simp [occursFree, hyx, Ne.symm hyx]
  | conn n c l r ihl ihr =>
    simp only [nameless, Nameless.refersTo, Bool.or_eq_true, ihl, ihr, occursFree, and_or_left, exists_or]

theorem isWellFormed_nameless : (t.nameless scope).isWellFormed = true ↔ t.WellFormed := by
  induction t using induct generalizing scope with
  | lit n a => simp [nameless, Nameless.isWellFormed]
  | var n y =>
    rw [nameless, refer]
    split <;> simp [Nameless.isWellFormed]
  | rel n a ts ih | freeClause n ts ih =>
    have hall : (∀ t ∈ ts, (t.nameless scope).isWellFormed = true) ↔ ∀ t ∈ ts, t.WellFormed :=
      forall₂_congr fun t ht => ih t ht
    simp [nameless, Nameless.isWellFormed, Nameless.areWellFormed_eq_all, hall]
  | fn n a t ih => rw [nameless, Nameless.isWellFormed, ih, wellFormed_fn]
  | quant n q y t ih =>
    rw [nameless, Nameless.isWellFormed, Bool.and_eq_true, ih, refersTo_nameless, wellFormed_quant]
    simp only [idxOf?_cons_eq_zero, exists_eq_left]
  | conn n c l r ihl ihr =>
    rw [nameless, Nameless.isWellFormed, Bool.and_eq_true, ihl, ihr, wellFormed_conn]

/-- Whether a term is well formed does not depend on the names of its binders. -/
theorem AlphaEquiv.wellFormed_iff (h : t.AlphaEquiv u) : t.WellFormed ↔ u.WellFormed := by
  have ht : (t.nameless []).isWellFormed = true ↔ t.WellFormed := isWellFormed_nameless
  rw [← ht, h, isWellFormed_nameless]

theorem WellFormed.standardForm (h : t.WellFormed) : t.standardForm.WellFormed := by
  have hissued : AllIssued (Names.avoiding t) t.eliminate.toNnf := by
    intro x hx
    rw [toNnf_eq, mem_variableNames_nnf, mem_variableNames_eliminate] at hx
    exact Names.issued_avoiding hx
  have halpha := (standardized [] (Names.avoiding t) t.eliminate.toNnf hissued (List.forall_mem_nil _)).2
  exact halpha.wellFormed_iff.mpr h.eliminate.toNnf

end Term

end Nameless

/-! ## Quantifiers out -/

namespace Term

section Skolem

variable {s t : Term} {x y : String} {env : List (String × Term)} {enclosing : Option String} {names : Names}

/-- The other free variables stay. -/
theorem occursFree_substituteFree_of_ne (hxy : x ≠ y) (h : t.occursFree y = true) :
    (substituteFree x s t).occursFree y = true := by
  induction t using induct with
  | lit n a => cases h
  | var n z =>
    obtain rfl : y = z := by simpa [occursFree] using h
    simp [substituteFree, hxy, occursFree]
  | rel n a ts ih | freeClause n ts ih =>
    rw [occursFree, occursFreeAny_eq_true] at h
    obtain ⟨t, ht, hfree⟩ := h
    rw [substituteFree, substituteFreeAll_eq_map, occursFree, occursFreeAny_eq_true]
    exact ⟨_, List.mem_map_of_mem ht, ih t ht hfree⟩
  | fn n a t ih => exact ih h
  | quant n q z t ih =>
    obtain ⟨hz, hfree⟩ : y ≠ z ∧ t.occursFree y = true := by simpa [occursFree] using h
    rw [substituteFree, occursFree, if_neg (by simpa using hz)]
    split
    · exact hfree
    · exact ih hfree
  | conn n c l r ihl ihr =>
    rw [occursFree, Bool.or_eq_true] at h
    rw [substituteFree, occursFree, Bool.or_eq_true]
    exact h.imp ihl ihr

theorem WellFormed.substituteFree (hs : s.WellFormed) (ht : t.WellFormed) (x : String) :
    (substituteFree x s t).WellFormed := by
  induction t using induct with
  | lit n a => exact wellFormed_lit
  | var n y =>
    rw [Term.substituteFree]
    split
    · exact wellFormed_signed.mpr hs
    · exact wellFormed_var
  | rel n a ts ih =>
    obtain ⟨hne, hts⟩ := wellFormed_rel.mp ht
    rw [Term.substituteFree, substituteFreeAll_eq_map, wellFormed_rel, List.forall_mem_map]
    exact ⟨by simpa using hne, fun t ht => ih t ht (hts t ht)⟩
  | fn n a t ih => exact wellFormed_fn.mpr (ih (wellFormed_fn.mp ht))
  | quant n q y t ih =>
    obtain ⟨hy, ht⟩ := wellFormed_quant.mp ht
    rw [Term.substituteFree, wellFormed_quant]
    split
    · exact ⟨hy, ht⟩
    · next hxy => exact ⟨occursFree_substituteFree_of_ne (by simpa using hxy) hy, ih ht⟩
  | conn n c l r ihl ihr =>
    obtain ⟨hl, hr⟩ := wellFormed_conn.mp ht
    exact wellFormed_conn.mpr ⟨ihl hl, ihr hr⟩
  | freeClause n ts ih =>
    rw [wellFormed_freeClause] at ht
    rw [Term.substituteFree, substituteFreeAll_eq_map, wellFormed_freeClause, List.forall_mem_map]
    exact fun t hmem => ih t hmem (ht t hmem)

theorem WellFormed.replaceInTurn (henv : ∀ e ∈ env, e.2.WellFormed) (ht : t.WellFormed) :
    (replaceInTurn env t).WellFormed := by
  induction env generalizing t with
  | nil => exact ht
  | cons e env ih =>
    obtain ⟨he, henv⟩ := List.forall_mem_cons.mp henv
    exact ih henv (he.substituteFree ht e.1)

theorem wellFormed_skolemTerm (names : Names) (enclosing : Option String) :
    (names.skolemTerm enclosing).1.WellFormed := by
  cases enclosing <;> simp [Names.skolemTerm]

/-- Replacements that are well formed leave no quantifier without its variable. -/
theorem WellFormed.skolemizeIn (henv : ∀ e ∈ env, e.2.WellFormed) (ht : t.WellFormed) (enclosing : Option String)
    (names : Names) : (skolemizeIn env enclosing names t).1.WellFormed := by
  have hbelow : ∀ {env : List (String × Term)} (x : String), (∀ e ∈ env, e.2.WellFormed) →
      ∀ e ∈ unshadowed x env, e.2.WellFormed := fun x henv e he => henv e (mem_of_mem_unshadowed he)
  induction t using induct generalizing env enclosing names with
  -- quantifiers in arguments are met by the replacements only
  | lit n a | var n x | rel n a ts ih | fn n a t ih => exact ht.replaceInTurn henv
  | quant n q x t ih =>
    have hbody := (wellFormed_quant.mp ht).2
    cases q with
    | «exists» =>
      refine ih (List.forall_mem_append.mpr ⟨hbelow x henv, ?_⟩) hbody enclosing _
      exact List.forall_mem_singleton.mpr (wellFormed_skolemTerm names enclosing)
    | «forall» => exact ih (hbelow x henv) hbody (some x) names
  | conn n c l r ihl ihr =>
    obtain ⟨hl, hr⟩ := wellFormed_conn.mp ht
    exact wellFormed_conn.mpr ⟨ihl henv hl enclosing names, ihr henv hr enclosing _⟩
  | freeClause n ts ih =>
    rw [wellFormed_freeClause] at ht
    rw [skolemizeIn_freeClause, wellFormed_freeClause]
    induction ts generalizing names with
    | nil => exact List.forall_mem_nil _
    | cons t ts ihts =>
      obtain ⟨iht, ih⟩ := List.forall_mem_cons.mp ih
      obtain ⟨ht, hts⟩ := List.forall_mem_cons.mp ht
      exact List.forall_mem_cons.mpr ⟨iht henv ht enclosing names, ihts ih hts _⟩

theorem WellFormed.matrix (h : t.WellFormed) : ((Names.avoiding t).matrix t).1.WellFormed := by
  rw [Names.matrix, skolemize, settleQuantifiers_apart]
  exact h.standardForm.skolemizeIn (List.forall_mem_nil _) none _

end Skolem

/-! ## Free clauses out -/

section Flatten

variable {t u : Term}

theorem occursFree_flatten (h : t.flatten = .ok u) (x : String) : u.occursFree x = t.occursFree x := by
  induction t using induct generalizing u with
  | lit n a | var n y | rel n a ts ih | fn n a t ih =>
    cases h
    rfl
  | quant n q y t ih =>
    obtain ⟨u, hu, h⟩ := bind_eq_ok.mp h
    cases h
    rw [occursFree, ih hu, occursFree]
  | conn n c l r ihl ihr =>
    obtain ⟨l', hl, h⟩ := bind_eq_ok.mp h
    obtain ⟨r', hr, h⟩ := bind_eq_ok.mp h
    cases h
    rw [occursFree, ihl hl, ihr hr, occursFree]
  | freeClause n ts ih =>
    obtain ⟨us, hus, h⟩ := bind_eq_ok.mp h
    have hall : (∀ u ∈ us, u.occursFree x = false) ↔ ∀ t ∈ ts, t.occursFree x = false :=
      forall_iff_of_mapM (flattenAll_eq_mapM ts ▸ hus) fun t ht u hu => by rw [ih t ht hu]
    have hany : occursFreeAny x us = occursFreeAny x ts := by
      rw [Bool.eq_iff_iff, ← not_iff_not]
      simpa using hall
    cases us with
    | nil => cases h
    | cons u us =>
      cases h
      rw [occursFree, ← hany, ← occursFree_joinRight .and]
      cases n with
      | false => rfl
      | true => rw [if_pos rfl, toNnf_eq, occursFree_nnf, occursFree_negate]

theorem WellFormed.flatten (ht : t.WellFormed) (h : t.flatten = .ok u) : u.WellFormed := by
  induction t using induct generalizing u with
  | lit n a | var n y | rel n a ts ih | fn n a t ih =>
    cases h
    exact ht
  | quant n q y t ih =>
    obtain ⟨hy, ht⟩ := wellFormed_quant.mp ht
    obtain ⟨u, hu, h⟩ := bind_eq_ok.mp h
    cases h
    exact wellFormed_quant.mpr ⟨by rwa [occursFree_flatten hu], ih ht hu⟩
  | conn n c l r ihl ihr =>
    obtain ⟨hl, hr⟩ := wellFormed_conn.mp ht
    obtain ⟨l', hl', h⟩ := bind_eq_ok.mp h
    obtain ⟨r', hr', h⟩ := bind_eq_ok.mp h
    cases h
    exact wellFormed_conn.mpr ⟨ihl hl hl', ihr hr hr'⟩
  | freeClause n ts ih =>
    rw [wellFormed_freeClause] at ht
    obtain ⟨us, hus, h⟩ := bind_eq_ok.mp h
    rw [flattenAll_eq_mapM] at hus
    have hall : ∀ u ∈ us, u.WellFormed := forall_of_mapM hus fun t hmem u hu => ih t hmem (ht t hmem) hu
    cases us with
    | nil => cases h
    | cons u us =>
      have hjoin := wellFormed_joinRight .and hall
      cases h
      cases n with
      | false => exact hjoin
      | true => exact (wellFormed_negate.mpr hjoin).toNnf

theorem WellFormed.statements (ht : t.WellFormed) {us : List Term} (h : t.statements = .ok us) :
    ∀ u ∈ us, u.WellFormed := by
  rw [statements.eq_def] at h
  split at h
  · next ts =>
    rw [flattenAll_eq_mapM] at h
    exact forall_of_mapM h fun t hmem u hu => (wellFormed_freeClause.mp ht t hmem).flatten hu
  · next t _ =>
    obtain ⟨u, hu, h⟩ := bind_eq_ok.mp h
    cases h
    exact List.forall_mem_singleton.mpr (ht.flatten hu)

end Flatten

/-! ## All passes -/

section Stages

variable {t u : Term}

/-- What the passes make of the formula `t`, one after the other. -/
inductive Stage (t : Term) : Term → Prop where
  /-- Implications out. -/
  | eliminated : Stage t t.eliminate
  /-- Negation inwards. -/
  | normal : Stage t t.eliminate.toNnf
  /-- Binders apart. -/
  | apart : Stage t (t.eliminate.toNnf.apart (Names.avoiding t)).1
  /-- Quantifiers out. -/
  | matrix : Stage t ((Names.avoiding t).matrix t).1
  /-- Free clauses out: one of the statements. -/
  | statement {us : List Term} {u : Term} :
    ((Names.avoiding t).matrix t).1.statements = .ok us → u ∈ us → Stage t u

theorem Stage.wellFormed (h : Stage t u) (ht : t.WellFormed) : u.WellFormed := by
  cases h with
  | eliminated => exact ht.eliminate
  | normal => exact ht.eliminate.toNnf
  | apart => exact ht.standardForm
  | matrix => exact ht.matrix
  | statement hus hu => exact ht.matrix.statements hus u hu

theorem WellFormed.rebuild_eq (h : t.WellFormed) : t.rebuild = .ok t := by
  rw [Term.rebuild_eq, check_eq_ok_iff.mpr h]
  rfl

theorem WellFormed.decode_toJson (h : t.WellFormed) : decode t.toJson = .ok t :=
  (decode_eq_ok_iff (ofJson?_toJson t)).mpr ⟨rfl, h⟩

/-- Of a well-formed formula, all that the passes give is well formed: the checked constructors accept it, and it is
read back from the record that is written of it.  Quantifiers are left in arguments only. -/
theorem passes_keep_formation (t : Term) (ht : t.WellFormed) :
    (∀ u, Stage t u → u.WellFormed ∧ u.rebuild = .ok u ∧ decode u.toJson = .ok u) ∧
      ((Names.avoiding t).matrix t).1.isQuantifierFree = true := by
  refine ⟨fun u hu => ?_, (Names.outline_matrix _ t).1⟩
  have hwell := hu.wellFormed ht
  exact ⟨hwell, hwell.rebuild_eq, hwell.decode_toJson⟩

/-- `∀Y ∃X p(X, Y, ∀Y r(X, Y))`, with a quantifier in an argument. -/
def nestedUse : Term :=
  .quant false .forall "Y" (.quant false .exists "X" (.rel false "p"
    [.var false "X", .var false "Y", .quant false .forall "Y" (.rel false "r" [.var false "X", .var false "Y"])]))

/-- `p(skolem_0(Y), Y, ∀Y r(skolem_0(Y), Y))`: the inner binder captures a variable, and still binds its own. -/
def nestedMatrix : Term :=
  .rel false "p" [.fn false "skolem_0" (.var false "Y"), .var false "Y", .quant false .forall "Y"
    (.rel false "r" [.fn false "skolem_0" (.var false "Y"), .var false "Y"])]

theorem passes_keep_nestedUse :
    nestedUse.WellFormed ∧ ((Names.avoiding nestedUse).matrix nestedUse).1 = nestedMatrix ∧
      nestedMatrix.WellFormed ∧ decode nestedMatrix.toJson = .ok nestedMatrix ∧
      nestedMatrix.isQuantifierFree = true := by
  have hwell : nestedUse.WellFormed := check_eq_ok_iff.mp rfl
  have hmatrix : ((Names.avoiding nestedUse).matrix nestedUse).1 = nestedMatrix := by with_unfolding_all rfl
  obtain ⟨hstages, hfree⟩ := passes_keep_formation nestedUse hwell
  obtain ⟨hresult, -, hjson⟩ := hstages _ .matrix
  rw [hmatrix] at hresult hjson hfree
  exact ⟨hwell, hmatrix, hresult, hjson, hfree⟩

end Stages

end Term

end Clausal
