import Clausal.ClauseForm.Implication

/-!
# Clausal.ClauseForm.Negation — negation normal form

Negation moves down to the atomic formulas by De Morgan's laws and the duality of the quantifiers; implications met
on the way are removed first.  The negation of a free clause is a free clause with one member, the disjunction of
the negated members.  A free clause without members stays as it is, and so do arguments.

* `Term.nnf`: the normal form by recursion on the formula.
* `Term.toNnf`: the same computed by a loop over two stacks, tasks still to do and results so far, whose depth does
  not grow with that of the formula.
* `Term.isNnf`: only atomic formulas are negated, and `∧`, `∨` are the only connectives.
-/

namespace Clausal

/-- The connective that negation turns `op` into. -/
def Connective.dual : Connective → Connective
  | .and => .or
  | .or => .and
  | op => op

namespace Term

/-- `t op (t₁ op (t₂ …))`, grouped to the right. -/
def joinRight (op : Connective) : Term → List Term → Term
  | t, [] => t
  | t, u :: us => .conn false op t (joinRight op u us)

/-! ## By recursion -/

mutual

/-- The normal form of `t`, or of its negation if `flip` is set. -/
def nnf (flip : Bool) : Term → Term
  | .conn n .and l r =>
    if n != flip then .or (nnf true l) (nnf true r) else .and (nnf false l) (nnf false r)
  | .conn n .or l r =>
    if n != flip then .and (nnf true l) (nnf true r) else .or (nnf false l) (nnf false r)
  | .conn n .implies l r =>
    if n != flip then .and (nnf false l) (nnf true r) else .or (nnf true l) (nnf false r)
  | .conn n .iff l r =>
    if n != flip then .or (.and (nnf false l) (nnf true r)) (.and (nnf false r) (nnf true l))
    else .and (.or (nnf true l) (nnf false r)) (.or (nnf true r) (nnf false l))
  | .quant n q x t =>
    if n != flip then .quant false q.dual x (nnf true t) else .quant false q x (nnf false t)
  | .freeClause n [] => .freeClause (n != flip) []
  | .freeClause n (t :: ts) =>
    if n != flip then .freeClause false [joinRight .or (nnf true t) (nnfAll true ts)]
    else .freeClause false (nnf false t :: nnfAll false ts)
  | t => signed flip t

/-- `nnf` member by member. -/
def nnfAll (flip : Bool) : List Term → List Term
  | [] => []
  | t :: ts => nnf flip t :: nnfAll flip ts

end

/-! ## By two stacks -/

/-- A piece of work on the way to the normal form. -/
inductive NnfTask where
  /-- Bring this formula into normal form. -/
  | visit (t : Term)
  /-- Join the last two results. -/
  | join (op : Connective)
  /-- Quantify the last result. -/
  | bind (kind : Quant) (binder : String)
  /-- Gather the last `count` results into a free clause. -/
  | gather (count : Nat)
  deriving Repr, Inhabited

/-- What a formula asks for: the tasks that replace it, or the formula itself as a result. -/
def NnfTask.open : Term → List NnfTask ⊕ Term
  | .conn n .implies l r => .inl [.visit (eliminate (.conn n .implies l r))]
  | .conn n .iff l r => .inl [.visit (eliminate (.conn n .iff l r))]
  | .conn n op l r =>
    if n then .inl [.visit l.negate, .visit r.negate, .join op.dual] else .inl [.visit l, .visit r, .join op]
  | .quant n q x t => if n then .inl [.visit t.negate, .bind q.dual x] else .inl [.visit t, .bind q x]
  | .freeClause n [] => .inr (.freeClause n [])
  | .freeClause n (t :: ts) =>
    if n then .inl [.visit (joinRight .or t.negate (ts.map negate)), .gather 1]
    else .inl ((t :: ts).map .visit ++ [.gather (ts.length + 1)])
  | t => .inr t

/-- One turn of the loop on the tasks that follow and the results so far, last result first; `none` if results are
missing. -/
def NnfTask.step : NnfTask → List NnfTask → List Term → Option (List NnfTask × List Term)
  | .visit t, tasks, results =>
    match NnfTask.open t with
    | .inl more => some (more ++ tasks, results)
    | .inr done => some (tasks, done :: results)
  | .join op, tasks, right :: left :: results => some (tasks, .conn false op left right :: results)
  | .bind q x, tasks, body :: results => some (tasks, .quant false q x body :: results)
  | .gather n, tasks, results =>
    if n ≤ results.length then some (tasks, .freeClause false (results.take n).reverse :: results.drop n) else none
  | _, _, _ => none

/-- At most `fuel` turns of the loop; `none` if it gets stuck or does not finish. -/
def NnfTask.run : Nat → List NnfTask → List Term → Option (List Term)
  | _, [], results => some results
  | 0, _ :: _, _ => none
  | fuel + 1, task :: tasks, results =>
    match NnfTask.step task tasks results with
    | some (tasks', results') => run fuel tasks' results'
    | none => none

mutual

/-- The number of turns that the loop may take on a formula. -/
def nnfCost : Term → Nat
  | .conn _ .implies l r => nnfCost l + nnfCost r + 3
  | .conn _ .iff l r => 2 * nnfCost l + 2 * nnfCost r + 7
  | .conn _ _ l r => nnfCost l + nnfCost r + 2
  | .quant _ _ _ t => nnfCost t + 2
  | .freeClause _ ts => nnfCostAll ts + 2
  | _ => 1

/-- The cost of the members of a free clause, with the joins of its negation. -/
def nnfCostAll : List Term → Nat
  | [] => 0
  | t :: ts => nnfCost t + nnfCostAll ts + 2

end

/-- The negation normal form. -/
def toNnf (t : Term) : Term :=
  match NnfTask.run t.nnfCost [.visit t] [] with
  | some [result] => result
  | _ => t

/-! ## The test -/

mutual

/-- Negation stands on atomic formulas only, and `∧`, `∨` are the only connectives. -/
def isNnf : Term → Bool
  | .conn n .and l r | .conn n .or l r => !n && isNnf l && isNnf r
  | .conn .. => false
  | .quant n _ _ t => !n && isNnf t
  | .freeClause n ts => !n && isNnfAll ts
  | _ => true

/-- Every member is in negation normal form. -/
def isNnfAll : List Term → Bool
  | [] => true
  | t :: ts => isNnf t && isNnfAll ts

end

end Term

end Clausal
