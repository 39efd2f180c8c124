import Clausal.Term.Basic
import Clausal.Distinct

/-!
# Clausal.Term.Variables — variables, binders, replacement

* `freeVars`: the free variables in order of first occurrence; `occursFree` is the membership test.
* `binders`: the names bound by quantifiers anywhere inside, in order of first occurrence.
* `mapVars`: simultaneous replacement of variable occurrences, blind to binders.
* `sameBy`: comparison of a term with variables replaced, without building it.
* `substituteFree`: replacement of the free occurrences of one variable.
* `renameBound`: a new name for one binder and the occurrences it captures.
-/

namespace Clausal.Term

/-! ## Occurrences -/

mutual

/-- `x` occurs somewhere, bound or not. -/
def mentions (x : String) : Term → Bool
  | .lit .. => false
  | .var _ y => x == y
  | .rel _ _ ts | .freeClause _ ts => mentionsAny x ts
  | .fn _ _ t | .quant _ _ _ t => mentions x t
  | .conn _ _ l r => mentions x l || mentions x r

/-- `x` occurs in one of the terms. -/
def mentionsAny (x : String) : List Term → Bool
  | [] => false
  | t :: ts => mentions x t || mentionsAny x ts

end

mutual

/-- `x` has an occurrence that no binder inside the term captures. -/
def occursFree (x : String) : Term → Bool
  | .lit .. => false
  | .var _ y => x == y
  | .rel _ _ ts | .freeClause _ ts => occursFreeAny x ts
  | .fn _ _ t => occursFree x t
  | .quant _ _ y t => if x == y then false else occursFree x t
  | .conn _ _ l r => occursFree x l || occursFree x r

/-- `x` occurs free in one of the terms. -/
def occursFreeAny (x : String) : List Term → Bool
  | [] => false
  | t :: ts => occursFree x t || occursFreeAny x ts

end

mutual

/-- The free occurrences from left to right, with repetitions; `bound` holds the enclosing binders. -/
def freeOccurrences (bound : List String) : Term → List String
  | .lit .. => []
  | .var _ x => if bound.contains x then [] else [x]
  | .rel _ _ ts | .freeClause _ ts => freeOccurrencesAll bound ts
  | .fn _ _ t => freeOccurrences bound t
  | .quant _ _ x t => freeOccurrences (x :: bound) t
  | .conn _ _ l r => freeOccurrences bound l ++ freeOccurrences bound r

/-- The free occurrences of a list of terms. -/
def freeOccurrencesAll (bound : List String) : List Term → List String
  | [] => []
  | t :: ts => freeOccurrences bound t ++ freeOccurrencesAll bound ts

end

/-- The free variables, each once, in order of first occurrence. -/
def freeVars (t : Term) : List String :=
  Distinct.ofList (· == ·) (t.freeOccurrences [])

mutual

/-- The binders from left to right, outer before inner, with repetitions. -/
def binderOccurrences : Term → List String
  | .lit .. | .var .. => []
  | .rel _ _ ts | .freeClause _ ts => binderOccurrencesAll ts
  | .fn _ _ t => binderOccurrences t
  | .quant _ _ x t => x :: binderOccurrences t
  | .conn _ _ l r => binderOccurrences l ++ binderOccurrences r

/-- The binders of a list of terms. -/
def binderOccurrencesAll : List Term → List String
  | [] => []
  | t :: ts => binderOccurrences t ++ binderOccurrencesAll ts

end

/-- The names bound anywhere inside, each once, in order of first occurrence. -/
def binders (t : Term) : List String :=
  Distinct.ofList (· == ·) t.binderOccurrences

mutual

/-- Every variable name in the term, of an occurrence or of a binder. -/
def variableNames : Term → List String
  | .lit .. => []
  | .var _ x => [x]
  | .rel _ _ ts | .freeClause _ ts => variableNamesAll ts
  | .fn _ _ t => variableNames t
  | .quant _ _ x t => x :: variableNames t
  | .conn _ _ l r => variableNames l ++ variableNames r

/-- The variable names of a list of terms. -/
def variableNamesAll : List Term → List String
  | [] => []
  | t :: ts => variableNames t ++ variableNamesAll ts

end

mutual

/-- No variable occurs in the term. -/
def isGround : Term → Bool
  | .lit .. => true
  | .var .. => false
  | .rel _ _ ts | .freeClause _ ts => isGroundAll ts
  | .fn _ _ t | .quant _ _ _ t => isGround t
  | .conn _ _ l r => isGround l && isGround r

/-- No variable occurs in any of the terms. -/
def isGroundAll : List Term → Bool
  | [] => true
  | t :: ts => isGround t && isGroundAll ts

end

mutual

/-- The number of variable occurrences. -/
def varCount : Term → Nat
  | .lit .. => 0
  | .var .. => 1
  | .rel _ _ ts | .freeClause _ ts => varCountAll ts
  | .fn _ _ t | .quant _ _ _ t => varCount t
  | .conn _ _ l r => varCount l + varCount r

/-- The number of variable occurrences in a list of terms. -/
def varCountAll : List Term → Nat
  | [] => 0
  | t :: ts => varCount t + varCountAll ts

end

/-! ## Replacement -/

mutual

/-- Every occurrence of a variable `x` becomes `f x`, negated where the occurrence is.  Binders are not looked at. -/
def mapVars (f : String → Term) : Term → Term
  | .lit n a => .lit n a
  | .var n x => signed n (f x)
  | .rel n a ts => .rel n a (mapVarsAll f ts)
  | .fn n a t => .fn n a (mapVars f t)
  | .quant n q x t => .quant n q x (mapVars f t)
  | .conn n c l r => .conn n c (mapVars f l) (mapVars f r)
  | .freeClause n ts => .freeClause n (mapVarsAll f ts)

/-- `mapVars` member by member. -/
def mapVarsAll (f : String → Term) : List Term → List Term
  | [] => []
  | t :: ts => mapVars f t :: mapVarsAll f ts

end

mutual

/-- `same` with the variables on the left left to `onVar`, which is given the name and the term on the right, with the
sign of the occurrence moved there. -/
def sameBy (onVar : String → Term → Bool) : Term → Term → Bool
  | .var n x, u => onVar x (signed n u)
  | .lit n a, .lit m b => n == m && a == b
  | .rel n a ts, .rel m b us => n == m && a == b && sameByAll onVar ts us
  | .fn n a t, .fn m b u => n == m && a == b && sameBy onVar t u
  | .quant n q x t, .quant m r y u => n == m && q == r && x == y && sameBy onVar t u
  | .conn n c l r, .conn m d k s => n == m && c == d && sameBy onVar l k && sameBy onVar r s
  | .freeClause n ts, .freeClause m us => n == m && sameByAll onVar ts us
  | _, _ => false

/-- `sameBy` member by member. -/
def sameByAll (onVar : String → Term → Bool) : List Term → List Term → Bool
  | [], [] => true
  | t :: ts, u :: us => sameBy onVar t u && sameByAll onVar ts us
  | _, _ => false

end

mutual

/-- Comparing by `onVar` is comparing after `mapVars`. -/
theorem sameBy_eq {onVar : String → Term → Bool} {f : String → Term} (h : ∀ x u, onVar x u = (f x).same u) :
    ∀ t u : Term, t.sameBy onVar u = (t.mapVars f).same u
  | .var n x, u => by rw [sameBy, mapVars, same_signed, h]
  | .lit n a, u => by cases u <;> simp [sameBy, mapVars, same]
  | .rel n a ts, u => by cases u <;> simp [sameBy, mapVars, same, sameByAll_eq h ts]
  | .fn n a t, u => by cases u <;> simp [sameBy, mapVars, same, sameBy_eq h t]
  | .quant n q x t, u => by cases u <;> simp [sameBy, mapVars, same, sameBy_eq h t]
  | .conn n c l r, u => by cases u <;> simp [sameBy, mapVars, same, sameBy_eq h l, sameBy_eq h r]
  | .freeClause n ts, u => by cases u <;> simp [sameBy, mapVars, same, sameByAll_eq h ts]

theorem sameByAll_eq {onVar : String → Term → Bool} {f : String → Term} (h : ∀ x u, onVar x u = (f x).same u) :
    ∀ ts us : List Term, sameByAll onVar ts us = sameAll (mapVarsAll f ts) us
  | [], us => by cases us <;> simp [sameByAll, mapVarsAll, sameAll]
  | t :: ts, us => by cases us <;> simp [sameByAll, mapVarsAll, sameAll, sameBy_eq h t, sameByAll_eq h ts]

end

mutual

/-- Some variable of the term satisfies `p`, bound or not. -/
def anyVar (p : String → Bool) : Term → Bool
  | .lit .. => false
  | .var _ x => p x
  | .rel _ _ ts | .freeClause _ ts => anyVarAll p ts
  | .fn _ _ t | .quant _ _ _ t => anyVar p t
  | .conn _ _ l r => anyVar p l || anyVar p r

/-- Some variable of one of the terms satisfies `p`. -/
def anyVarAll (p : String → Bool) : List Term → Bool
  | [] => false
  | t :: ts => anyVar p t || anyVarAll p ts

end

mutual

/-- The free occurrences of `x` become `s`, a negated occurrence its negation.  A binder inside may capture
variables of `s`. -/
def substituteFree (x : String) (s : Term) : Term → Term
  | .lit n a => .lit n a
  | .var n y => if x == y then signed n s else .var n y
  | .rel n a ts => .rel n a (substituteFreeAll x s ts)
  | .fn n a t => .fn n a (substituteFree x s t)
  | .quant n q y t => .quant n q y (if x == y then t else substituteFree x s t)
  | .conn n c l r => .conn n c (substituteFree x s l) (substituteFree x s r)
  | .freeClause n ts => .freeClause n (substituteFreeAll x s ts)

/-- `substituteFree` member by member. -/
def substituteFreeAll (x : String) (s : Term) : List Term → List Term
  | [] => []
  | t :: ts => substituteFree x s t :: substituteFreeAll x s ts

end

mutual

/-- Every `x`, occurrence or binder, becomes `y`. -/
def renameAll (x y : String) : Term → Term
  | .lit n a => .lit n a
  | .var n z => .var n (if x == z then y else z)
  | .rel n a ts => .rel n a (renameAllIn x y ts)
  | .fn n a t => .fn n a (renameAll x y t)
  | .quant n q z t => .quant n q (if x == z then y else z) (renameAll x y t)
  | .conn n c l r => .conn n c (renameAll x y l) (renameAll x y r)
  | .freeClause n ts => .freeClause n (renameAllIn x y ts)

/-- `renameAll` member by member. -/
def renameAllIn (x y : String) : List Term → List Term
  | [] => []
  | t :: ts => renameAll x y t :: renameAllIn x y ts

end

mutual

/-- The binders `x` and all they capture become `y`; free occurrences of `x` stay. -/
def renameBound (x y : String) : Term → Term
  | .lit n a => .lit n a
  | .var n z => .var n z
  | .rel n a ts => .rel n a (renameBoundIn x y ts)
  | .fn n a t => .fn n a (renameBound x y t)
  | .quant n q z t => if x == z then .quant n q y (renameAll x y t) else .quant n q z (renameBound x y t)
  | .conn n c l r => .conn n c (renameBound x y l) (renameBound x y r)
  | .freeClause n ts => .freeClause n (renameBoundIn x y ts)

/-- `renameBound` member by member. -/
def renameBoundIn (x y : String) : List Term → List Term
  | [] => []
  | t :: ts => renameBound x y t :: renameBoundIn x y ts

end

/-- Binds the free variables universally, the first one outermost. -/
def close (t : Term) : Term :=
  t.freeVars.foldr (fun x body => .quant false .forall x body) t

end Clausal.Term
