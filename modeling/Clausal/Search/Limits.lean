import Clausal.Duration

/-!
# Clausal.Search.Limits — what a search may cost

* `Limits`: bounds on depth, steps and time, and what to do about a goal that repeats one of its ancestors.
* `SolveError`: why a search was stopped; `message` is the wording.
-/

namespace Clausal

/-- What to do about a goal that is equal to one of its ancestors. -/
inductive CyclePolicy where
  /-- Stop the search. -/
  | error
  /-- Treat the goal as failed. -/
  | prune
  deriving DecidableEq, Repr, Inhabited

/-- The limits of a search; `none` is no limit. -/
structure Limits where
  /-- The number of ancestors a goal may have. -/
  maxDepth : Option Nat
  /-- The number of clause heads that may be tried. -/
  maxSteps : Option Nat
  /-- The time a search may take, in milliseconds. -/
  timeoutMs : Option Nat
  cyclePolicy : CyclePolicy
  deriving DecidableEq, Repr

namespace Limits

/-- A depth of 1024, and a repeated goal is an error. -/
def standard : Limits :=
  { maxDepth := some 1024, maxSteps := none, timeoutMs := none, cyclePolicy := .error }

/-- No limits, and a repeated goal is an error. -/
def unbounded : Limits :=
  { standard with maxDepth := none }

end Limits

/-- Why a search was stopped. -/
inductive SolveError where
  /-- A goal had too many ancestors. -/
  | depthLimit (limit : Nat)
  /-- Too many clause heads were tried. -/
  | stepLimit (limit : Nat)
  /-- The time was up. -/
  | timeout (ms : Nat)
  /-- The search was called off. -/
  | cancelled
  /-- A goal repeated one of its ancestors; the goals from the one to the other. -/
  | cycle (path : List String)
  deriving DecidableEq, Repr

/-- The wording of a search error. -/
def SolveError.message : SolveError → String
  | .depthLimit limit => "proof depth limit of " ++ toString limit ++ " exceeded"
  | .stepLimit limit => "resolution step limit of " ++ toString limit ++ " exceeded"
  | .timeout ms => "search timed out after " ++ Duration.text ms
  | .cancelled => "search cancelled"
  | .cycle path => "cycle detected while proving goals: " ++ " -> ".intercalate path

end Clausal
