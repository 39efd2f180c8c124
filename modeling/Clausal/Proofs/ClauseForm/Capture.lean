import Clausal.Proofs.ClauseForm.Fresh
import Clausal.Proofs.ClauseForm.Separation

/-!
# Clausal.Proofs.ClauseForm.Capture — free variables and dropped binders

The pass that takes binders apart compares them with each other and with the scope around them, not with the variables
that are free in the formula.  A binder that keeps its name may have that of a free variable, and then dropping it makes
one variable of two.

* `occursFree_skolemizeIn`: where the variables of the quantifier-free form come from.
* `Term.standardForm`: the formula from which the quantifiers are dropped; it has the free variables it had before.
* `dropped_binders_apart_iff`: when no binder has the name of a free variable, and what the variables of the
  quantifier-free form stand for.
-/

universe u

namespace Clausal

/-! ## The quantifier-free form -/

section Matrix

namespace Term

variable {names : Names} {env : List (String × Term)} {enclosing : Option String} {x z : String} {t s : Term}

theorem occursFree_substituteFree (h : (substituteFree x s t).occursFree z = true) :
    t.occursFree z = true ∨ s.occursFree z = true := by
  induction t using induct with
  | lit n a => cases h
  | var n y =>
    rw [substituteFree] at h
    split at h
    · cases n with
      | false => exact .inr h
      | true => exact .inr (by rwa [signed, if_pos rfl, occursFree_negate] at h)
    · exact .inl h
  | rel n a ts ih | freeClause n ts ih =>
    rw [substituteFree, occursFree, substituteFreeAll_eq_map, occursFreeAny_eq_true] at h
    rw [occursFree, occursFreeAny_eq_true]
    obtain ⟨_, hmem, h⟩ := h
    obtain ⟨t, ht, rfl⟩ := List.mem_map.mp hmem
    exact (ih t ht h).imp_left fun h => ⟨t, ht, h⟩
  | fn n a t ih => exact ih h
  | quant n q y t ih =>
    obtain ⟨hzy, h⟩ := occursFree_quant.mp h
    rw [occursFree_quant]
    split at h
    · exact .inl ⟨hzy, h⟩
    · exact (ih h).imp_left fun h => ⟨hzy, h⟩
  | conn n c l r ihl ihr =>
    rw [substituteFree, occursFree, Bool.or_eq_true] at h
    rw [occursFree, Bool.or_eq_true]
    rcases h with h | h
    · exact (ihl h).imp_left .inl
    · exact (ihr h).imp_left .inr

theorem occursFree_replaceInTurn (h : (replaceInTurn env t).occursFree z = true) :
    t.occursFree z = true ∨ ∃ e ∈ env, e.2.occursFree z = true := by
  induction env generalizing t with
  | nil => exact .inl h
  | cons e env ih =>
    rcases ih h with h | ⟨e', he', h⟩
    · exact (occursFree_substituteFree h).imp_right fun h => ⟨e, List.mem_cons_self, h⟩
    · exact .inr ⟨e', List.mem_cons_of_mem e he', h⟩

/-- Where the variables come from that may be free below a part of the formula. -/
def Supplied (env : List (String × Term)) (enclosing : Option String) (z : String) : Prop :=
  (∃ e ∈ env, e.2.occursFree z = true) ∨ enclosing = some z

theorem Supplied.skolem (names : Names)
    (h : Supplied (unshadowed x env ++ [(x, (names.skolemTerm enclosing).1)]) enclosing z) :
    Supplied env enclosing z := by
  rcases h with ⟨e, he, h⟩ | h
  · rcases List.mem_append.mp he with he | he
    · exact .inl ⟨e, mem_of_mem_unshadowed he, h⟩
    · obtain rfl := List.mem_singleton.mp he
      exact .inr (mentions_skolemTerm (mentions_of_occursFree h))
  · exact .inr h

/-- A variable of the quantifier-free form is free in the formula, was bound by a quantifier that is dropped, or comes
from around the formula. -/
theorem occursFree_skolemizeIn (h : (skolemizeIn env enclosing names t).1.occursFree z = true) :
    t.occursFree z = true ∨ z ∈ t.formulaBinders ∨ Supplied env enclosing z := by
  induction t using induct generalizing env enclosing names with
  | lit n a | var n y | rel n a ts ih | fn n a t ih =>
    exact (occursFree_replaceInTurn h).imp_right fun h => .inr (.inl h)
  | quant n q y t ih =>
    rw [occursFree_quant, formulaBinders, List.mem_cons]
    by_cases hzy : z = y
    · exact .inr (.inl (.inl hzy))
    · cases q with
      | «exists» =>
        rcases ih h with h | h | h
        · exact .inl ⟨hzy, h⟩
        · exact .inr (.inl (.inr h))
        · exact .inr (.inr (h.skolem names))
      | «forall» =>
        rcases ih h with h | h | ⟨e, he, h⟩ | h
        · exact .inl ⟨hzy, h⟩
        · exact .inr (.inl (.inr h))
        · exact .inr (.inr (.inl ⟨e, mem_of_mem_unshadowed he, h⟩))
        · exact absurd (Option.some.inj h).symm hzy
  | conn n c l r ihl ihr =>
    rw [skolemizeIn_conn, occursFree, Bool.or_eq_true] at h
    rw [occursFree, Bool.or_eq_true, formulaBinders, List.mem_append]
    rcases h with h | h
    · exact (ihl h).imp .inl (Or.imp_left .inl)
    · exact (ihr h).imp .inr (Or.imp_left .inr)
  | freeClause n ts ih =>
    rw [skolemizeIn_freeClause, occursFree] at h
    rw [occursFree, formulaBinders]
    induction ts generalizing names with
    | nil => cases h
    | cons t ts ihs =>
      obtain ⟨iht, ihts⟩ := List.forall_mem_cons.mp ih
      rw [skolemizeAll_cons, occursFreeAny, Bool.or_eq_true] at h
      rw [occursFreeAny, Bool.or_eq_true, formulaBindersAll, List.mem_append]
      rcases h with h | h
      · exact (iht h).imp .inl (Or.imp_left .inl)
      · exact (ihs ihts h).imp .inr (Or.imp_left .inr)

/-- The normal form of the formula with its binders apart, from which the quantifiers are dropped. -/
def standardForm (t : Term) : Term :=
  (t.eliminate.toNnf.apart (Names.avoiding t)).1

theorem occursFree_matrix {t : Term} (h : ((Names.avoiding t).matrix t).1.occursFree z = true) :
    t.standardForm.occursFree z = true ∨ z ∈ t.standardForm.formulaBinders := by
  rw [Names.matrix, skolemize, settleQuantifiers_apart] at h
  rcases occursFree_skolemizeIn h with h | h | ⟨e, he, -⟩ | h
  · exact .inl h
  · exact .inr h
  · cases he
  · cases h

theorem separates_standardForm {D : Type u} (I : Interpretation D) (t : Term) :
    Separates I [] (Names.avoiding t) t.eliminate.toNnf (t.eliminate.toNnf.apart (Names.avoiding t)).2
      t.standardForm := by
  refine separable [] (Names.avoiding t) t.eliminate.toNnf (fun x hx => ?_) (List.forall_mem_nil _)
  rw [toNnf_eq, mem_variableNames_nnf, mem_variableNames_eliminate] at hx
  exact Names.issued_avoiding hx

theorem occursFree_standardForm {t : Term} : t.standardForm.occursFree z = true ↔ t.occursFree z = true := by
  have hnnf : t.eliminate.toNnf.occursFree z = t.occursFree z := by
    rw [toNnf_eq, occursFree_nnf, occursFree_eliminate]
  have h := separates_standardForm exchange t
  rw [← hnnf]
  exact ⟨h.recast.free z, h.free z⟩

/-- A free variable is a binder too just if its binder kept its name. -/
theorem mem_binderOccurrences_standardForm {t : Term} (hz : t.occursFree z = true) :
    z ∈ t.standardForm.binderOccurrences ↔ t.eliminate.toNnf.keepsBinder z = true := by
  have hissued : (Names.avoiding t).Issued z :=
    Names.issued_avoiding (mem_variableNames.mpr (.inl (mentions_of_occursFree hz)))
  exact (separates_standardForm exchange t).kept z hissued List.not_mem_nil

end Term

/-- After the binders were taken apart, no binder has the name of a free variable just if no binder with such a name was
kept.  A variable of the quantifier-free form is free in the formula, and then of no quantifier but one that was kept,
or it is not free there and comes from exactly one quantifier. -/
theorem dropped_binders_apart_iff (t : Term) :
    ((∀ x, t.standardForm.occursFree x = true → x ∉ t.standardForm.binderOccurrences) ↔
      ∀ x, t.occursFree x = true → t.eliminate.toNnf.keepsBinder x = false) ∧
    ∀ x, ((Names.avoiding t).matrix t).1.occursFree x = true →
      (t.occursFree x = true ∧
        (x ∈ t.standardForm.formulaBinders → t.eliminate.toNnf.keepsBinder x = true)) ∨
      (t.occursFree x = false ∧ t.standardForm.formulaBinders.count x = 1) := by
  refine ⟨forall_congr' fun x => ?_, fun x hx => ?_⟩
  · rw [Term.occursFree_standardForm, ← Bool.not_eq_true]
    exact forall_congr' fun hx => not_congr (Term.mem_binderOccurrences_standardForm hx)
  · by_cases hfree : t.occursFree x = true
    · refine .inl ⟨hfree, fun hbinder => ?_⟩
      rw [← Term.mem_binderOccurrences_standardForm hfree]
      exact Term.mem_binderOccurrences_of_mem_formulaBinders hbinder
    · refine .inr ⟨Bool.eq_false_iff.mpr hfree,
        List.count_eq_one_of_mem (Term.separates_standardForm exchange t).nodup ?_⟩
      exact (Term.occursFree_matrix hx).resolve_left fun h => hfree (Term.occursFree_standardForm.mp h)

/-- Something is not `p`, or everything is: the variable of both is called `X`. -/
def capturing : Term :=
  .or (.rel true "p" [.var false "X"]) (.quant false .forall "X" (.rel false "p" [.var false "X"]))

def capturingClauses : KnowledgeBase where
  clauses := [⟨false, [.rel true "p" [.var false "X"], .rel false "p" [.var false "X"]]⟩]

theorem standardForm_capturing : capturing.standardForm = capturing := by
  with_unfolding_all rfl

theorem clauseForm_capturing : capturing.clauseForm = .ok capturingClauses := by
  with_unfolding_all rfl

theorem capturing_fails : ¬ capturing.Holds parted (fun _ => false) := by
  rintro (h | h)
  · exact h rfl
  · exact absurd (h true) (by simp [Term.Holds, Interpretation.value, parted])

theorem capturingClauses_hold {D : Type} (I : Interpretation D) (v : String → D) : capturingClauses.Holds I v := by
  intro c hc
  obtain rfl := List.mem_singleton.mp hc
  by_cases hp : (Term.rel false "p" [.var false "X"]).Holds I v
  · exact ⟨_, List.mem_cons_of_mem _ List.mem_cons_self, hp⟩
  · exact ⟨_, List.mem_cons_self, hp⟩

/-- A quantifier of a well-formed formula has the name of a variable that is free, and a formula that does not hold
everywhere has clauses that do. -/
theorem free_variable_merged :
    capturing.check = .ok () ∧
      (∃ x, capturing.standardForm.occursFree x = true ∧ x ∈ capturing.standardForm.binderOccurrences) ∧
      ¬ capturing.Holds parted (fun _ => false) ∧ capturing.clauseForm = .ok capturingClauses ∧
      ∀ (D : Type) (I : Interpretation D) (v : String → D), capturingClauses.Holds I v := by
  refine ⟨rfl, ⟨"X", ?_⟩, capturing_fails, clauseForm_capturing, fun D => capturingClauses_hold⟩
  rw [standardForm_capturing]
  decide

end Matrix

end Clausal
