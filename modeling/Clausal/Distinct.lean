/-!
# Clausal.Distinct — lists without repetition

Ordered sets up to a given equality test: a list holds the members in order of insertion, and an element is added
only if no member is equal to it, so of equal elements the first one stays.
-/

namespace Clausal.Distinct

variable {α : Type}

/-- Some member of `xs` is equal to `x`. -/
def mem (eq : α → α → Bool) (xs : List α) (x : α) : Bool :=
  xs.any (eq · x)

/-- `xs` with `x` at its end, unless a member is equal to `x`. -/
def insert (eq : α → α → Bool) (xs : List α) (x : α) : List α :=
  if mem eq xs x then xs else xs ++ [x]

/-- `xs` followed by the new elements of `ys`. -/
def union (eq : α → α → Bool) (xs ys : List α) : List α :=
  ys.foldl (insert eq) xs

/-- The elements of `xs`, each once, in order of first occurrence. -/
def ofList (eq : α → α → Bool) (xs : List α) : List α :=
  union eq [] xs

/-- `xs` without its first member equal to `x`. -/
def erase (eq : α → α → Bool) (xs : List α) (x : α) : List α :=
  xs.eraseP (eq · x)

/-- The same members in any order, for lists without repetition. -/
def sameMembers (eq : α → α → Bool) (xs ys : List α) : Bool :=
  xs.length == ys.length && xs.all (mem eq ys)

end Clausal.Distinct
