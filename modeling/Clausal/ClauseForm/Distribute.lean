import Clausal.ClauseForm.Negation
import Clausal.Clause

/-!
# Clausal.ClauseForm.Distribute — conjunctions of clauses

`∨` is distributed over `∧`, and the resulting conjunction of disjunctions is read off as clauses, left to right.

* `Term.distribute`: the conjunction of the distributed parts, grouped to the right.
* `Term.isCnf`: conjunctions of disjunctions of atomic terms.
* `Term.clauses`: the clauses of such a formula.
-/

namespace Clausal.Term

/-! ## Distribution -/

/-- `left ∨ right` where `left` is not a conjunction: distributed over the conjunctions of `right`. -/
def disjoinOver (left : Term) : Term → Term
  | .conn _ .and b c => .and (disjoinOver left b) (disjoinOver left c)
  | right => .or left right

/-- `left ∨ right` distributed over the conjunctions of both, those of `left` first. -/
def disjoin (left right : Term) : Term :=
  match left with
  | .conn _ .and a b => .and (disjoin a right) (disjoin b right)
  | left => disjoinOver left right

/-- The conjunction of a list of parts; `default` if there are none. -/
def conjoin (default : Term) : List Term → Term
  | [] => default
  | t :: ts => joinRight .and t ts

mutual

/-- The conjuncts of a formula, left to right, each distributed. -/
def distributedParts : Term → List Term
  | .conn false .and l r => distributedParts l ++ distributedParts r
  | .conn _ .or l r => [disjoin (conjoin l (distributedParts l)) (conjoin r (distributedParts r))]
  | .freeClause n ts => [.freeClause n (distributeAll ts)]
  | t => [t]

/-- Every member distributed. -/
def distributeAll : List Term → List Term
  | [] => []
  | t :: ts => conjoin t (distributedParts t) :: distributeAll ts

end

/-- The formula with `∨` distributed over `∧`. -/
def distribute (t : Term) : Term :=
  conjoin t (distributedParts t)

/-! ## The test -/

/-- The operands of a tree of un-negated conjunctions, left to right. -/
def conjuncts : Term → List Term
  | .conn false .and l r => conjuncts l ++ conjuncts r
  | t => [t]

/-- A tree of disjunctions over atomic terms. -/
def isDisjunction : Term → Bool
  | .conn _ .or l r => isDisjunction l && isDisjunction r
  | t => t.isAtomic

/-- A conjunction of disjunctions of atomic terms. -/
def isCnf (t : Term) : Bool :=
  t.conjuncts.all isDisjunction

/-! ## Clauses -/

/-- The members of a disjunction as a clause, which takes the sign of the disjunction. -/
def clause : Term → Except FormationError Clause
  | .conn n .or l r => do
    let members := (← clause l).union (← clause r)
    return { members with negated := n }
  | t => if t.isAtomic then Clause.unit t else .error (.notCnf t.render)

mutual

/-- The operands of all conjunctions and free clauses of a formula, left to right. -/
def clauseFormulas : Term → List Term
  | .conn _ .and l r => clauseFormulas l ++ clauseFormulas r
  | .freeClause _ ts => clauseFormulasAll ts
  | t => [t]

/-- The operands in a list of formulas. -/
def clauseFormulasAll : List Term → List Term
  | [] => []
  | t :: ts => clauseFormulas t ++ clauseFormulasAll ts

end

/-- The clauses of a conjunction of disjunctions, left to right. -/
def clauses (t : Term) : Except FormationError KnowledgeBase :=
  return KnowledgeBase.ofList (← t.clauseFormulas.mapM clause)

end Clausal.Term
