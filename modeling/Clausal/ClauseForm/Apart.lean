import Clausal.ClauseForm.Names

/-!
# Clausal.ClauseForm.Apart — binders apart

Gives quantifiers that share a binder different ones.  A name bound on both sides of a connective is replaced by a
fresh name on each side; a member of a free clause gives way to the members before it; and a quantifier inside the
scope of its own binder's name takes a fresh name.

* `Term.apart`: the pass.
* `Term.nodes`: the number of formula nodes, which renaming keeps and which the recursion descends on.
-/

namespace Clausal

namespace Term

/-! ## Formula nodes -/

mutual

/-- The number of formula nodes; arguments do not count. -/
def nodes : Term → Nat
  | .quant _ _ _ t => nodes t + 1
  | .conn _ _ l r => nodes l + nodes r + 1
  | .freeClause _ ts => nodesAll ts + 1
  | _ => 1

/-- The number of formula nodes of the members of a free clause, one more for each member. -/
def nodesAll : List Term → Nat
  | [] => 0
  | t :: ts => nodes t + nodesAll ts + 1

end

mutual

theorem nodes_renameAll (x y : String) : ∀ t : Term, (renameAll x y t).nodes = t.nodes
  | .lit .. | .var .. | .rel .. | .fn .. => by simp [renameAll, nodes]
  | .quant _ _ _ t => by simp [renameAll, nodes, nodes_renameAll x y t]
  | .conn _ _ l r => by simp [renameAll, nodes, nodes_renameAll x y l, nodes_renameAll x y r]
  | .freeClause _ ts => by simp [renameAll, nodes, nodesAll_renameAllIn x y ts]

theorem nodesAll_renameAllIn (x y : String) : ∀ ts : List Term, nodesAll (renameAllIn x y ts) = nodesAll ts
  | [] => by simp [renameAllIn]
  | t :: ts => by simp [renameAllIn, nodesAll, nodes_renameAll x y t, nodesAll_renameAllIn x y ts]

end

mutual

theorem nodes_renameBound (x y : String) : ∀ t : Term, (renameBound x y t).nodes = t.nodes
  | .lit .. | .var .. | .rel .. | .fn .. => by simp [renameBound, nodes]
  | .quant _ _ z t => by
    by_cases h : x = z
    · simp [renameBound, nodes, h, nodes_renameAll]
    · simp [renameBound, nodes, h, nodes_renameBound x y t]
  | .conn _ _ l r => by simp [renameBound, nodes, nodes_renameBound x y l, nodes_renameBound x y r]
  | .freeClause _ ts => by simp [renameBound, nodes, nodesAll_renameBoundIn x y ts]

theorem nodesAll_renameBoundIn (x y : String) : ∀ ts : List Term, nodesAll (renameBoundIn x y ts) = nodesAll ts
  | [] => by simp [renameBoundIn]
  | t :: ts => by simp [renameBoundIn, nodesAll, nodes_renameBound x y t, nodesAll_renameBoundIn x y ts]

end

end Term

/-! ## Renaming with fresh names -/

namespace Names

/-- Gives each binder of the list a fresh name in `t`. -/
def freshen (names : Names) : List String → Term → Term × Names
  | [], t => (t, names)
  | x :: xs, t => freshen names.freshVariable.2 xs (t.renameBound x names.freshVariable.1)

theorem nodes_freshen (names : Names) (xs : List String) (t : Term) : (names.freshen xs t).1.nodes = t.nodes := by
  induction xs generalizing names t with
  | nil => rfl
  | cons x xs ih => simp [freshen, ih, Term.nodes_renameBound]

/-- Gives each binder of the list a fresh name in `l` and another one in `r`. -/
def freshenBoth (names : Names) : List String → Term → Term → (Term × Term) × Names
  | [], l, r => ((l, r), names)
  | x :: xs, l, r =>
    let a := names.freshVariable
    let b := a.2.freshVariable
    freshenBoth b.2 xs (l.renameBound x a.1) (r.renameBound x b.1)

theorem nodes_freshenBoth (names : Names) (xs : List String) (l r : Term) :
    (names.freshenBoth xs l r).1.1.nodes = l.nodes ∧ (names.freshenBoth xs l r).1.2.nodes = r.nodes := by
  induction xs generalizing names l r with
  | nil => exact ⟨rfl, rfl⟩
  | cons x xs ih => simp [freshenBoth, ih, Term.nodes_renameBound]

/-- Renames the binder `x` of the body `t` while it is in scope, at most `tries` times.  Fresh names are distinct, so
one more try than there are names in scope is enough. -/
def leaveScope (names : Names) (scope : List String) : Nat → String → Term → (String × Term) × Names
  | 0, x, t => ((x, t), names)
  | tries + 1, x, t =>
    if scope.contains x then
      let a := names.freshVariable
      leaveScope a.2 scope tries a.1 (t.renameAll x a.1)
    else ((x, t), names)

theorem nodes_leaveScope (names : Names) (scope : List String) (tries : Nat) (x : String) (t : Term) :
    (names.leaveScope scope tries x t).1.2.nodes = t.nodes := by
  induction tries generalizing names x t with
  | zero => rfl
  | succ n ih =>
    rw [leaveScope]
    split
    · simp [ih, Term.nodes_renameAll]
    · rfl

end Names

/-! ## The pass -/

namespace Term

/-- The elements of `xs` that `ys` has too. -/
def sharedNames (xs ys : List String) : List String :=
  xs.filter ys.contains

mutual

/-- `t` with its binders apart, inside the scope of the binders `scope`. -/
def apartIn (scope : List String) (names : Names) (t : Term) : Term × Names :=
  match t with
  | .conn n c l r =>
    let both := names.freshenBoth (sharedNames l.binders r.binders) l r
    let left := apartIn scope both.2 both.1.1
    let right := apartIn scope left.2 both.1.2
    (.conn n c left.1 right.1, right.2)
  | .quant n q x t =>
    let bound := names.leaveScope scope (scope.length + 1) x t
    let body := apartIn (bound.1.1 :: scope) bound.2 bound.1.2
    (.quant n q bound.1.1 body.1, body.2)
  | .freeClause n ts =>
    let members := apartAll scope [] names ts
    (.freeClause n members.1, members.2)
  | t => (t, names)
termination_by t.nodes
decreasing_by
  · have := (Names.nodes_freshenBoth names (sharedNames l.binders r.binders) l r).1
    simp only [nodes]; omega
  · have := (Names.nodes_freshenBoth names (sharedNames l.binders r.binders) l r).2
    simp only [nodes]; omega
  · have := Names.nodes_leaveScope names scope (scope.length + 1) x t
    simp only [nodes]; omega
  · simp only [nodes]; omega

/-- The members of a free clause, apart from each other and from the binders `seen` of earlier members. -/
def apartAll (scope seen : List String) (names : Names) (ts : List Term) : List Term × Names :=
  match ts with
  | [] => ([], names)
  | t :: ts =>
    let own := names.freshen (sharedNames t.binders seen) t
    let first := apartIn scope own.2 own.1
    let rest := apartAll scope (Distinct.union (· == ·) seen own.1.binders) first.2 ts
    (first.1 :: rest.1, rest.2)
termination_by nodesAll ts
decreasing_by
  · have := Names.nodes_freshen names (sharedNames t.binders seen) t
    simp only [nodesAll]; omega
  · simp only [nodesAll]; omega

end

/-- `t` with its binders apart. -/
def apart (names : Names) (t : Term) : Term × Names :=
  apartIn [] names t

end Term

end Clausal
