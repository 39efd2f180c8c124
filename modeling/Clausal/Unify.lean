import Clausal.Subst

/-!
# Clausal.Unify — most general unifiers

`unify x y s` extends `s` so that it makes `x` and `y` equal, signs included, if that is possible.  Only constants,
variables, relations and functions unify; other formulas never do, not even with themselves.

A variable that is already bound stands for its binding.  The recursion follows the first term, and every look-up
of a bound variable passes to the next level of `unifyUpTo`; an acyclic substitution allows no more look-ups on one
path than twice the number of variables in play, which is the bound that `unify` starts from.
-/

namespace Clausal

namespace Unify

/-- Binds the unbound variable `x` so that its occurrence with sign `neg` stands for `t`, unless it occurs in `t`. -/
def bind? (neg : Bool) (x : String) (t : Term) (s : Subst) : Option Subst :=
  if s.occurs x t then none else some (s.insert x (Term.signed neg t))

/-- Unifies an occurrence of the variable `x` with sign `neg` with the term `t`; `chase` takes over where a bound
variable is replaced by its binding. -/
def occurrence? (chase : Term → Term → Subst → Option Subst) (neg : Bool) (x : String) (t : Term) (s : Subst) :
    Option Subst :=
  match s.get? x with
  | some b => chase (Term.signed neg b) t s
  | none =>
    match t with
    | .var m y =>
      if x == y then (if neg == m then some s else none)
      else
        match s.get? y with
        | some b => chase (.var neg x) (Term.signed m b) s
        | none => bind? neg x (.var m y) s
    | t => bind? neg x t s

mutual

/-- Unifies two terms down to their variables. -/
def terms? (chase : Term → Term → Subst → Option Subst) : Term → Term → Subst → Option Subst
  | .var n x, u, s => occurrence? chase n x u s
  | .lit n a, .lit m b, s => if n == m && a == b then some s else none
  | .rel n a ts, .rel m b us, s => if n == m && a == b then lists? chase ts us s else none
  | .fn n a t, .fn m b u, s => if n == m && a == b then terms? chase t u s else none
  | t, .var n x, s => occurrence? chase n x t s
  | _, _, _ => none

/-- Unifies two lists of the same length, left to right. -/
def lists? (chase : Term → Term → Subst → Option Subst) : List Term → List Term → Subst → Option Subst
  | [], [], s => some s
  | t :: ts, u :: us, s => (terms? chase t u s).bind (lists? chase ts us)
  | _, _, _ => none

end

end Unify

/-- `unify` with at most `n` bound variables looked up on one path. -/
def unifyUpTo : Nat → Term → Term → Subst → Option Subst
  | 0 => fun _ _ _ => none
  | n + 1 => Unify.terms? (unifyUpTo n)

/-- Extends `s` by a most general unifier of `x` and `y`. -/
def unify (x y : Term) (s : Subst) : Option Subst :=
  unifyUpTo (2 * (s.load + x.varCount + y.varCount) + 1) x y s

/-- Unifies two lists of the same length, left to right. -/
def unifyAll : List Term → List Term → Subst → Option Subst
  | [], [], s => some s
  | x :: xs, y :: ys, s => (unify x y s).bind (unifyAll xs ys)
  | _, _, _ => none

/-- A most general unifier. -/
def mgu (x y : Term) : Option Subst :=
  unify x y .empty

end Clausal
