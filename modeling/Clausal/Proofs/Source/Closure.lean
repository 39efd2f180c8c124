import Clausal.Proofs.ClauseForm.Outline
import Clausal.Proofs.Source.Variants
import Clausal.Proofs.Term.Positions

/-!
# Clausal.Proofs.Source.Closure — free variables and closed statements

A statement is read as a formula with free variables and closed by `∀` over them.  That nothing is left free, and that
every new quantifier has something to bind, rests on the list of free variables and the test for one being two forms of
the same notion.

* `substituteFree_eq_self_iff`: when a variable can be replaced without changing the term.
* `occursFree_universal`, `wellFormed_universal`: free variables and well-formedness below `∀`s over distinct variables;
  `freeVars_close`, `wellFormed_close`: the closure has no free variable and is well formed if the formula is.
* `Term.leadingUniversals`: the variables that the leading `∀`s of a formula bind, and the formula below them.
* `free_variables_and_closure`: the test, the list, the places of free occurrences, replacement and closure together.
-/

namespace Clausal.Term

variable {t s : Term} {x : String} {xs : List String}

/-! ## Replacement -/

section Replacement

theorem signed_eq_var_iff {n : Bool} : signed n s = .var n x ↔ s = .var false x := by
  have hsign : signed n (.var n x) = .var false x := by cases n <;> rfl
  rw [eq_signed_comm, hsign]

theorem substituteFreeAll_eq_self {ts : List Term} :
    substituteFreeAll x s ts = ts ↔ ∀ t ∈ ts, substituteFree x s t = t := by
  induction ts with
  | nil => simp [substituteFreeAll]
  | cons t ts ih => simp [substituteFreeAll, ← ih]

/-- A replacement leaves the term as it is if the variable is not free, or is replaced by itself, and only then. -/
theorem substituteFree_eq_self_iff : substituteFree x s t = t ↔ t.occursFree x = false ∨ s = .var false x := by
  induction t using induct with
  | lit n a => simp [substituteFree, occursFree]
  | var n y =>
    by_cases hxy : x = y
    · subst hxy
      simp [substituteFree, occursFree, signed_eq_var_iff]
    · simp [substituteFree, occursFree, hxy]
  | rel n a ts ih | freeClause n ts ih =>
    have hts : (∀ t ∈ ts, substituteFree x s t = t) ↔ occursFreeAny x ts = false ∨ s = .var false x := by
      calc (∀ t ∈ ts, substituteFree x s t = t)
        _ ↔ ∀ t ∈ ts, t.occursFree x = false ∨ s = .var false x := forall₂_congr ih
        _ ↔ (∀ t ∈ ts, t.occursFree x = false) ∨ s = .var false x := by
          simp only [imp_iff_not_or, ← or_assoc, forall_or_right]
        _ ↔ _ := by rw [occursFreeAny_eq_false]
    simp only [substituteFree, rel.injEq, freeClause.injEq, true_and, substituteFreeAll_eq_self, occursFree, hts]
  | fn n a t ih => simpa [substituteFree, occursFree] using ih
  | quant n q y t ih =>
    by_cases hxy : x = y
    · simp [substituteFree, occursFree, hxy]
    · simpa [substituteFree, occursFree, hxy] using ih
  | conn n c l r ihl ihr =>
    simp only [substituteFree, occursFree, conn.injEq, true_and, ihl, ihr, Bool.or_eq_false_iff, and_or_right]

end Replacement

/-! ## Closure -/

section Closure

theorem occursFree_universal : (universal xs t).occursFree x = true ↔ x ∉ xs ∧ t.occursFree x = true := by
  induction xs with
  | nil => simp [universal]
  | cons y xs ih =>
    rw [universal_cons, occursFree_quant, ih, List.mem_cons, not_or, and_assoc]

/-- Below quantifiers over distinct variables each has to have its own variable to bind in the formula itself. -/
theorem wellFormed_universal (hxs : xs.Nodup) :
    (universal xs t).WellFormed ↔ (∀ x ∈ xs, t.occursFree x = true) ∧ t.WellFormed := by
  induction xs with
  | nil => simp [universal]
  | cons y xs ih =>
    obtain ⟨hy, hxs⟩ := List.nodup_cons.mp hxs
    rw [universal_cons, wellFormed_quant, occursFree_universal, ih hxs, List.forall_mem_cons, and_iff_right hy, and_assoc]

/-- Nothing is left free. -/
theorem freeVars_close (t : Term) : t.close.freeVars = [] := by
  rw [List.eq_nil_iff_forall_not_mem]
  intro x hx
  obtain ⟨hnot, hfree⟩ := occursFree_universal.mp (mem_freeVars.mp hx)
  exact hnot (mem_freeVars.mpr hfree)

/-- The quantifiers of the closure have something to bind. -/
theorem wellFormed_close : t.close.WellFormed ↔ t.WellFormed := by
  have hclose : t.close = universal t.freeVars t := rfl
  rw [hclose, wellFormed_universal (nodup_freeVars t)]
  exact and_iff_right fun x hx => mem_freeVars.mp hx

/-- The variables that the leading `∀`s bind, the outermost first, and the formula below them. -/
def leadingUniversals : Term → List String × Term
  | .quant false .forall x t => (x :: t.leadingUniversals.1, t.leadingUniversals.2)
  | t => ([], t)

theorem leadingUniversals_of_isQuantifierFree (h : t.isQuantifierFree = true) : t.leadingUniversals = ([], t) := by
  cases t with
  | quant n q x t => cases h
  | _ => rfl

theorem leadingUniversals_universal (h : t.isQuantifierFree = true) (xs : List String) :
    (universal xs t).leadingUniversals = (xs, t) := by
  induction xs with
  | nil => exact leadingUniversals_of_isQuantifierFree h
  | cons y xs ih =>
    rw [universal_cons, leadingUniversals, ih]

/-- The list of free variables, the test for one and the places where variables stand free agree, and the list has each
variable once, by the position of its first free occurrence.  Replacing a variable changes a term only if it is free.
A well-formed formula without quantifiers has a well-formed closure without free variables: below `∀`s over just its
free variables, the first one outermost, stands the formula, and all other binders are those in its arguments. -/
theorem free_variables_and_closure (t f s : Term) (x : String) :
    (x ∈ t.freeVars ↔ t.occursFree x = true) ∧ (t.occursFree x = true ↔ ∃ p, t.FreeAt x p) ∧
      t.freeVars.Nodup ∧
      (∃ ps : List (List Nat), List.Forall₂ (fun y p => IsLeast {q | t.FreeAt y q} p) t.freeVars ps ∧
        ps.Pairwise (· < ·)) ∧
      (substituteFree x s t = t ↔ t.occursFree x = false ∨ s = .var false x) ∧
      (f.WellFormed → f.isQuantifierFree = true →
        f.close.WellFormed ∧ f.close.freeVars = [] ∧ f.close.leadingUniversals = (f.freeVars, f) ∧
          f.close.binderOccurrences = f.freeVars ++ f.binderOccurrences) := by
  refine ⟨mem_freeVars, occursFree_iff_exists_freeAt, nodup_freeVars t, exists_first_positions t,
    substituteFree_eq_self_iff, fun hwell hfree => ?_⟩
  have hprefix : f.close.leadingUniversals = (f.freeVars, f) := leadingUniversals_universal hfree f.freeVars
  exact ⟨wellFormed_close.mpr hwell, freeVars_close f, hprefix, binderOccurrences_universal f.freeVars f⟩

/-- `(∀X (p(X) ∧ ∀X q(X, Y)) ∧ r(X))`: `X` is bound twice over and free afterwards. -/
def reentered : Term :=
  .and (.quant false .forall "X" (.and (.rel false "p" [.var false "X"])
    (.quant false .forall "X" (.rel false "q" [.var false "X", .var false "Y"])))) (.rel false "r" [.var false "X"])

/-- `(p(Y, X) ∧ q(X, Z)) ⇒ r(Z, ¬Y)`. -/
def openRule : Term :=
  .implies (.and (.rel false "p" [.var false "Y", .var false "X"]) (.rel false "q" [.var false "X", .var false "Z"]))
    (.rel false "r" [.var false "Z", .var true "Y"])

/-- `Y` comes before `X`, whose first free occurrence is the last one, and replacing `Z` does nothing; the rule is
closed as `∀Y ∀X ∀Z`. -/
theorem reentered_variables_and_closure :
    reentered.freeVars = ["Y", "X"] ∧ (∃ p, reentered.FreeAt "X" p) ∧
      substituteFree "Z" (.const "a") reentered = reentered ∧
      openRule.WellFormed ∧ openRule.isQuantifierFree = true ∧ openRule.close.WellFormed ∧
      openRule.close.freeVars = [] ∧ openRule.close.leadingUniversals = (["Y", "X", "Z"], openRule) ∧
      openRule.close.binderOccurrences = ["Y", "X", "Z"] := by
  have hwell : openRule.WellFormed := check_eq_ok_iff.mp rfl
  have hvars : openRule.freeVars = ["Y", "X", "Z"] := by decide
  have hbinders : openRule.binderOccurrences = [] := rfl
  obtain ⟨-, hplace, -⟩ := free_variables_and_closure reentered openRule (.const "a") "X"
  obtain ⟨-, -, -, -, hself, hclosed⟩ := free_variables_and_closure reentered openRule (.const "a") "Z"
  obtain ⟨hclose, hnone, hprefix, hall⟩ := hclosed hwell rfl
  rw [hvars] at hprefix hall
  rw [hbinders] at hall
  exact ⟨by decide, hplace.mp rfl, hself.mpr (.inl rfl), hwell, rfl, hclose, hnone, hprefix, hall⟩

end Closure

end Clausal.Term
