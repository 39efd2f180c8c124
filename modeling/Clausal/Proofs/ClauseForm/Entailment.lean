import Clausal.Proofs.ClauseForm.Matrix

/-!
# Clausal.Proofs.ClauseForm.Entailment — the clause form entails the formula

The passes one after the other.  Implications and negations keep the truth of a formula, renaming binders does too, the
quantifier-free form entails it, and the clauses say what that form says.

* `ready_toNnf`: a closed formula is ready to have its binders taken apart.
* `matrix_entails`: if the quantifier-free form holds under all assignments, the formula does.
* `clauseForm_entails`: an interpretation in which the universal closure of every clause holds is one of the formula.
-/

universe u

namespace Clausal

variable {D : Type u} {I : Interpretation D} {t : Term}

/-! ## The quantifier-free form -/

section Matrix

theorem holds_toNnf_eliminate (t : Term) (v : String → D) : t.eliminate.toNnf.Holds I v ↔ t.Holds I v := by
  rw [Term.toNnf_eq, Term.holds_nnf, polar_false, Term.holds_eliminate]

theorem ready_toNnf (hform : t.isFormula = true) (hclosed : t.freeVars = []) :
    Term.Ready [] (Names.avoiding t) t.eliminate.toNnf where
  settled := by
    rw [Term.toNnf_eq]
    exact Term.isSettled_nnf (Term.isFormula_eliminate hform) false
  issued x hx := by
    rw [Term.toNnf_eq, Term.mem_variableNames_nnf, Term.mem_variableNames_eliminate] at hx
    exact Names.issued_avoiding hx
  inScope x hx := by
    rw [Term.toNnf_eq, Term.occursFree_nnf, Term.occursFree_eliminate, ← Term.mem_freeVars, hclosed] at hx
    exact hx
  scope_issued x hx := nomatch hx

/-- A closed formula with its binders apart, and the matrix made of it. -/
theorem exists_matrixOf (I : Interpretation D) (hform : t.isFormula = true) (hclosed : t.freeVars = []) :
    ∃ u, (∀ v, u.Holds I v ↔ t.Holds I v) ∧ Term.MatrixOf I [] [] u ((Names.avoiding t).matrix t).1 := by
  have hready := ready_toNnf hform hclosed
  obtain ⟨hrecast, hapart⟩ := Term.apartIn_spec (I := I) [] (Names.avoiding t) t.eliminate.toNnf hready
  have hsettled := hrecast.settled.trans hready.settled
  have henv : Term.Within [] [] := fun e he => (nomatch he)
  have henc : ∀ y, (none : Option String) = some y → y ∈ ([] : List String) := fun y hy => (nomatch hy)
  refine ⟨_, fun v => (hrecast.holds v).trans (holds_toNnf_eliminate t v), ?_⟩
  rw [Names.matrix, Term.skolemize, Term.apart, Term.settleQuantifiers_of_isSettled hsettled]
  exact Term.matrixOf_skolemizeIn hsettled hapart henv henc _

/-- The quantifier-free form of a closed formula entails it. -/
theorem matrix_entails (hform : t.isFormula = true) (hclosed : t.freeVars = [])
    (hmatrix : ∀ v, ((Names.avoiding t).matrix t).1.Holds I v) (v : String → D) : t.Holds I v := by
  obtain ⟨u, hsame, hof⟩ := exists_matrixOf I hform hclosed
  rw [← hsame v]
  exact hof.entails v fun w _ => hmatrix w

end Matrix

/-! ## The clauses -/

section Clauses

/-- An interpretation of the universal closure of every clause is one of the formula. -/
theorem clauseForm_entails {kb : KnowledgeBase} (hform : t.isFormula = true) (hclosed : t.freeVars = [])
    (hkb : t.clauseForm = .ok kb) (hclauses : ∀ c ∈ kb.clauses, ∀ v, c.Holds I v) (v : String → D) : t.Holds I v := by
  obtain ⟨u, -, hof⟩ := exists_matrixOf I hform hclosed
  have hmatrix := (Term.matrixClauses_spec (I := I) hof.matrix hkb).2
  exact matrix_entails hform hclosed (fun w => (hmatrix w).mp fun c hc => hclauses c hc w) v

/-- Everything is unlike something, and all or not all things are `p`. -/
def unlikeness : Term :=
  .freeClause false
    [.quant false .forall "x" (.quant false .exists "y"
      (.iff (.fn false "p" (.var false "x")) (.fn true "p" (.var false "y")))),
     .or (.quant false .forall "x" (.fn false "p" (.var false "x")))
      (.quant true .forall "x" (.fn false "p" (.var false "x")))]

def unlikenessClauses : KnowledgeBase where
  clauses :=
    [⟨false, [.fn true "p" (.var false "x"), .fn true "p" (.fn false "skolem_0" (.var false "x"))]⟩,
     ⟨false, [.fn false "p" (.fn false "skolem_0" (.var false "x")), .fn false "p" (.var false "x")]⟩,
     ⟨false, [.fn false "p" (.var false "x1"), .fn true "p" (.lit false "skolem_1")]⟩]

/-- Two things, of which one is `p`; functions exchange them. -/
def exchange : Interpretation Bool where
  point := false
  constant _ := false
  function _ d := !d
  compound _ _ := false
  proposition _ := True
  property _ d := d = true
  relation _ _ := True

theorem clauseForm_unlikeness : unlikeness.clauseForm = .ok unlikenessClauses := by
  with_unfolding_all rfl

theorem unlikenessClauses_hold : ∀ c ∈ unlikenessClauses.clauses, ∀ v, c.Holds exchange v := by
  simp only [unlikenessClauses, List.forall_mem_cons]
  refine ⟨fun v => ?_, fun v => ?_, fun v => ?_, fun c hc => (nomatch hc)⟩
  · cases hx : v "x" <;> simp [Clause.Holds, Term.Holds, Interpretation.value, exchange, hx]
  · cases hx : v "x" <;> simp [Clause.Holds, Term.Holds, Interpretation.value, exchange, hx]
  · simp [Clause.Holds, Term.Holds, Interpretation.value, exchange]

theorem unlikeness_entailed :
    unlikeness.isFormula = true ∧ unlikeness.freeVars = [] ∧ unlikeness.clauseForm = .ok unlikenessClauses ∧
      (∀ c ∈ unlikenessClauses.clauses, ∀ v, c.Holds exchange v) ∧ ∀ v, unlikeness.Holds exchange v :=
  ⟨rfl, rfl, clauseForm_unlikeness, unlikenessClauses_hold,
    clauseForm_entails rfl rfl clauseForm_unlikeness unlikenessClauses_hold⟩

end Clauses

end Clausal
