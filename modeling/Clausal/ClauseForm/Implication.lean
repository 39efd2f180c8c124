import Clausal.Term.Basic

/-!
# Clausal.ClauseForm.Implication — implications out

`A ⇒ B` becomes `¬A ∨ B`, and `A ⇔ B` becomes `(¬A ∨ B) ∧ (¬B ∨ A)`.  The sign of the connective moves to what
replaces it.  Arguments of relations and functions are left alone.
-/

namespace Clausal.Term

mutual

/-- The formula without `⇒` and `⇔`. -/
def eliminate : Term → Term
  | .conn n .implies l r => .conn n .or (eliminate l).negate (eliminate r)
  | .conn n .iff l r =>
    .conn n .and (.or (eliminate l).negate (eliminate r)) (.or (eliminate r).negate (eliminate l))
  | .conn n c l r => .conn n c (eliminate l) (eliminate r)
  | .quant n q x t => .quant n q x (eliminate t)
  | .freeClause n ts => .freeClause n (eliminateAll ts)
  | t => t

/-- `eliminate` member by member. -/
def eliminateAll : List Term → List Term
  | [] => []
  | t :: ts => eliminate t :: eliminateAll ts

end

end Clausal.Term
