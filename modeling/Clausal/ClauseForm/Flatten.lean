import Clausal.ClauseForm.Negation
import Clausal.Formation

/-!
# Clausal.ClauseForm.Flatten — free clauses out

A free clause becomes the conjunction of its members, grouped to the right; a negated one the normal form of the
negated conjunction.  A free clause without members says nothing, which only makes sense for a whole formula.

* `Term.flatten`: the pass on a part of a formula, which must not have an empty free clause.
* `Term.simplify`: the whole formula, `none` if it says nothing.
* `Term.statements`: the members of a top-level free clause, each flattened on its own.
-/

namespace Clausal.Term

mutual

/-- The formula without free clauses. -/
def flatten : Term → Except FormationError Term
  | .freeClause n ts => do
    match ← flattenAll ts with
    | [] => .error .emptyFreeClause
    | u :: us =>
      let conjunction := joinRight .and u us
      return if n then conjunction.negate.toNnf else conjunction
  | .conn n c l r => return .conn n c (← flatten l) (← flatten r)
  | .quant n q x t => return .quant n q x (← flatten t)
  | t => return t

/-- `flatten` member by member. -/
def flattenAll : List Term → Except FormationError (List Term)
  | [] => return []
  | t :: ts => return (← flatten t) :: (← flattenAll ts)

end

/-- The formula without free clauses, `none` for a free clause without members. -/
def simplify : Term → Except FormationError (Option Term)
  | .freeClause _ [] => return none
  | t => return some (← flatten t)

/-- The statements of a formula without free clauses in them: the members of a free clause, or the formula itself. -/
def statements : Term → Except FormationError (List Term)
  | .freeClause false ts => flattenAll ts
  | t => return [← flatten t]

end Clausal.Term
