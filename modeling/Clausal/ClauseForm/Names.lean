import Clausal.Term.Variables

/-!
# Clausal.ClauseForm.Names — fresh names

`Names` hands out the variables `x0, x1, …`, leaving out the reserved ones, and the Skolem symbols
`skolem_0, skolem_1, …`.
-/

namespace Clausal

/-- Where the two series of fresh names stand, and the variable names they must not hand out. -/
structure Names where
  nextVariable : Nat
  nextSkolem : Nat
  reserved : List String
  deriving Repr, Inhabited

namespace Names

/-- Both series from their start, nothing reserved. -/
def start : Names := ⟨0, 0, []⟩

/-- Both series from their start, with the variable names of `t` reserved. -/
def avoiding (t : Term) : Names :=
  ⟨0, 0, Distinct.ofList (· == ·) t.variableNames⟩

/-- The `n`-th variable of the series. -/
def variableName (n : Nat) : String :=
  "x" ++ toString n

/-- The first number from `n` on whose variable is not reserved, among `tries + 1` candidates. -/
def skipReserved (reserved : List String) : Nat → Nat → Nat
  | 0, n => n
  | tries + 1, n => if reserved.contains (variableName n) then skipReserved reserved tries (n + 1) else n

/-- The next variable.  Each reserved name can be skipped once, so their number bounds the search. -/
def freshVariable (names : Names) : String × Names :=
  let n := skipReserved names.reserved names.reserved.length names.nextVariable
  (variableName n, { names with nextVariable := n + 1 })

/-- The next Skolem term: a function of the enclosing variable, or a constant if there is none. -/
def skolemTerm (names : Names) (enclosing : Option String) : Term × Names :=
  let symbol := "skolem_" ++ toString names.nextSkolem
  let term :=
    match enclosing with
    | some x => .fn false symbol (.var false x)
    | none => .lit false symbol
  (term, { names with nextSkolem := names.nextSkolem + 1 })

end Names

end Clausal
