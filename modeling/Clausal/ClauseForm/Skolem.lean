import Clausal.ClauseForm.Names
import Clausal.ClauseForm.Negation

/-!
# Clausal.ClauseForm.Skolem — quantifiers out

An existential variable becomes a Skolem term over the variable of the nearest enclosing `∀`, or a Skolem constant if
there is none; a universal quantifier is dropped and leaves its variable free.  A negated quantifier is first brought
into negation normal form.

The pass carries the replacements of the existential variables met so far and carries them out at the atomic
formulas, in the order in which they were made.  A quantifier over a replaced variable ends its replacement.

* `Term.skolemizeBy`: the pass, which leaves open how the next Skolem term is made.
* `Term.skolemizeIn`: the pass with the Skolem terms of `Names`; `Term.skolemize` runs it on a whole formula.
-/

namespace Clausal.Term

mutual

/-- Brings the negated quantifiers of a formula into negation normal form. -/
def settleQuantifiers : Term → Term
  | .quant n q x t => if n then toNnf (.quant n q x t) else .quant n q x (settleQuantifiers t)
  | .conn n c l r => .conn n c (settleQuantifiers l) (settleQuantifiers r)
  | .freeClause n ts => .freeClause n (settleQuantifiersAll ts)
  | t => t

/-- `settleQuantifiers` member by member. -/
def settleQuantifiersAll : List Term → List Term
  | [] => []
  | t :: ts => settleQuantifiers t :: settleQuantifiersAll ts

end

/-- Carries out the replacements one after the other. -/
def replaceInTurn (env : List (String × Term)) (t : Term) : Term :=
  env.foldl (fun t e => substituteFree e.1 e.2 t) t

/-- The replacements that reach below a quantifier over `x`. -/
def unshadowed (x : String) (env : List (String × Term)) : List (String × Term) :=
  env.filter fun e => e.1 != x

section Pass

variable {σ : Type} (fresh : σ → Option String → Term × σ)

mutual

/-- `t` without quantifiers, below the replacements `env` and the nearest universal variable `enclosing`.  Where the
Skolem terms come from is for `fresh` to say, whose state is handed on. -/
@[specialize]
def skolemizeBy (env : List (String × Term)) (enclosing : Option String) (state : σ) : Term → Term × σ
  | .quant _ .exists x t =>
    let skolem := fresh state enclosing
    skolemizeBy (unshadowed x env ++ [(x, skolem.1)]) enclosing skolem.2 t
  | .quant _ .forall x t => skolemizeBy (unshadowed x env) (some x) state t
  | .conn n c l r =>
    let left := skolemizeBy env enclosing state l
    let right := skolemizeBy env enclosing left.2 r
    (.conn n c left.1 right.1, right.2)
  | .freeClause n ts =>
    let members := skolemizeAllBy env enclosing state ts
    (.freeClause n members.1, members.2)
  | t => (replaceInTurn env t, state)

/-- `skolemizeBy` member by member. -/
@[specialize]
def skolemizeAllBy (env : List (String × Term)) (enclosing : Option String) (state : σ) :
    List Term → List Term × σ
  | [] => ([], state)
  | t :: ts =>
    let first := skolemizeBy env enclosing state t
    let rest := skolemizeAllBy env enclosing first.2 ts
    (first.1 :: rest.1, rest.2)

end

end Pass

/-- `t` without quantifiers, with the Skolem terms that `names` has next. -/
def skolemizeIn (env : List (String × Term)) (enclosing : Option String) (names : Names) (t : Term) : Term × Names :=
  skolemizeBy Names.skolemTerm env enclosing names t

/-- `skolemizeIn` member by member. -/
def skolemizeAll (env : List (String × Term)) (enclosing : Option String) (names : Names) (ts : List Term) :
    List Term × Names :=
  skolemizeAllBy Names.skolemTerm env enclosing names ts

section Equations

variable (env : List (String × Term)) (enclosing : Option String) (names : Names)

theorem skolemizeIn_exists (n : Bool) (x : String) (t : Term) :
    skolemizeIn env enclosing names (.quant n .exists x t) =
      skolemizeIn (unshadowed x env ++ [(x, (names.skolemTerm enclosing).1)]) enclosing
        (names.skolemTerm enclosing).2 t :=
  rfl

theorem skolemizeIn_forall (n : Bool) (x : String) (t : Term) :
    skolemizeIn env enclosing names (.quant n .forall x t) = skolemizeIn (unshadowed x env) (some x) names t :=
  rfl

theorem skolemizeIn_conn (n : Bool) (c : Connective) (l r : Term) :
    skolemizeIn env enclosing names (.conn n c l r) =
      (.conn n c (skolemizeIn env enclosing names l).1
        (skolemizeIn env enclosing (skolemizeIn env enclosing names l).2 r).1,
        (skolemizeIn env enclosing (skolemizeIn env enclosing names l).2 r).2) :=
  rfl

theorem skolemizeIn_freeClause (n : Bool) (ts : List Term) :
    skolemizeIn env enclosing names (.freeClause n ts) =
      (.freeClause n (skolemizeAll env enclosing names ts).1, (skolemizeAll env enclosing names ts).2) :=
  rfl

theorem skolemizeAll_cons (t : Term) (ts : List Term) :
    skolemizeAll env enclosing names (t :: ts) =
      ((skolemizeIn env enclosing names t).1 :: (skolemizeAll env enclosing (skolemizeIn env enclosing names t).2 ts).1,
        (skolemizeAll env enclosing (skolemizeIn env enclosing names t).2 ts).2) :=
  rfl

end Equations

/-- `t` without quantifiers. -/
def skolemize (names : Names) (t : Term) : Term × Names :=
  skolemizeIn [] none names t.settleQuantifiers

end Clausal.Term
