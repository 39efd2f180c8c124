import Clausal.Json.Reader
import Clausal.Search.Limits
import Clausal.Source.Error

/-!
# Clausal.Json.Limits — limits of a search as JSON

The limits of a search are an object with the fields `max_depth`, `max_steps` and `timeout_ms`, each a natural number
or `null`, and `cycle_policy`, which is the symbol `error` or `prune`.  A field that is missing has its standard value,
other fields are skipped, and no field of these four may be repeated.  An array gives the four fields in this order.
-/

namespace Clausal

/-- Why limits could not be loaded. -/
inductive LimitsError where
  /-- The file has no text. -/
  | unreadable
  /-- The text does not say limits. -/
  | invalid
  deriving DecidableEq, Repr

/-- The name of a policy in JSON. -/
def CyclePolicy.key : CyclePolicy → String
  | .error => "error"
  | .prune => "prune"

/-- The policy of a name. -/
def CyclePolicy.ofKey? (s : String) : Option CyclePolicy :=
  if s == "error" then some .error else if s == "prune" then some .prune else none

namespace Limits

/-- The names of the fields. -/
def fieldNames : List String := ["max_depth", "max_steps", "timeout_ms", "cycle_policy"]

/-- The JSON form. -/
def toJson (l : Limits) : Json :=
  .obj [("max_depth", Json.option Json.nat l.maxDepth), ("max_steps", Json.option Json.nat l.maxSteps),
    ("timeout_ms", Json.option Json.nat l.timeoutMs), ("cycle_policy", .str l.cyclePolicy.key)]

/-- A limit: a number, or `null` for none. -/
def bound? : Json → Option (Option Nat)
  | .null => some none
  | j => j.nat?.map some

/-- A policy. -/
def policy? (j : Json) : Option CyclePolicy :=
  (j.symbol? Json.isNull).bind CyclePolicy.ofKey?

/-- The value of a field, standard if it is missing. -/
def fieldOr {α : Type} (read : Json → Option α) (fields : List (String × Json)) (key : String) (standard : α) :
    Option α :=
  match fields.lookup key with
  | none => some standard
  | some j => read j

/-- The limits of a list of fields. -/
def ofFields? (fields : List (String × Json)) : Option Limits := do
  if fieldNames.any (fun name => fields.countP (·.1 == name) > 1) then none
  return {
    maxDepth := ← fieldOr bound? fields "max_depth" standard.maxDepth
    maxSteps := ← fieldOr bound? fields "max_steps" standard.maxSteps
    timeoutMs := ← fieldOr bound? fields "timeout_ms" standard.timeoutMs
    cyclePolicy := ← fieldOr policy? fields "cycle_policy" standard.cyclePolicy }

/-- The limits of a JSON value. -/
def ofJson? (j : Json) : Option Limits := do
  ofFields? (← j.record? fieldNames 0)

/-- The limits written in a text. -/
def parse? (text : String) : Option Limits := do
  ofJson? (← Json.parseRecord? text)

/-- The limits in a file with the given content. -/
def parseFile (content : Except FileError String) : Except LimitsError Limits :=
  match content with
  | .error _ => .error .unreadable
  | .ok text =>
    match parse? text with
    | some l => .ok l
    | none => .error .invalid

end Limits

end Clausal
