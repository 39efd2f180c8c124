import Clausal.ClauseForm.Apart
import Clausal.ClauseForm.Distribute
import Clausal.ClauseForm.Flatten
import Clausal.ClauseForm.Skolem
import Clausal.Horn

/-!
# Clausal.ClauseForm — from formulas to clauses

The passes in their order: implications out, negation inwards, binders apart, quantifiers out, free clauses out, and
then, one statement at a time, distribution and reading off the clauses.
-/

namespace Clausal

/-- The clauses of one statement. -/
def Term.statementClauses (t : Term) : Except FormationError KnowledgeBase :=
  t.distribute.clauses

/-- The clauses of a quantifier-free formula in negation normal form, statement by statement. -/
def Term.matrixClauses (t : Term) : Except FormationError KnowledgeBase := do
  let kbs ← (← t.statements).mapM Term.statementClauses
  return kbs.foldl KnowledgeBase.union .empty

/-- The quantifier-free form of a formula, with the names used on the way. -/
def Names.matrix (names : Names) (t : Term) : Term × Names :=
  let apart := t.eliminate.toNnf.apart names
  apart.1.skolemize apart.2

/-- The clause form of a formula, with the names used on the way. -/
def Names.clauseForm (names : Names) (t : Term) : Except FormationError KnowledgeBase × Names :=
  let matrix := names.matrix t
  (matrix.1.matrixClauses, matrix.2)

/-- The clause form of a formula. -/
def Term.clauseForm (t : Term) : Except FormationError KnowledgeBase :=
  ((Names.avoiding t).clauseForm t).1

/-- The clause form of a formula, if all its clauses are Horn. -/
def Term.hornForm (t : Term) : Except FormationError HornBase := do
  HornBase.ofKnowledgeBase (← t.clauseForm)

end Clausal
