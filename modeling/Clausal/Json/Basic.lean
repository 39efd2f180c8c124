/-!
# Clausal.Json.Basic — JSON values

A number keeps the text it was written with, so that `1`, `1.0` and `1e0` stay apart.  The fields of an object are a
list in written order.
-/

namespace Clausal

/-- A JSON value. -/
inductive Json where
  | null
  | bool (value : Bool)
  | num (text : String)
  | str (value : String)
  | arr (items : List Json)
  | obj (fields : List (String × Json))
  deriving Repr, Inhabited

namespace Json

/-- A natural number. -/
def nat (n : Nat) : Json := .num (toString n)

/-- An optional value, `null` if it is missing. -/
def option {α : Type} (f : α → Json) : Option α → Json
  | some a => f a
  | none => .null

/-- The fields of an object. -/
def fields? : Json → Option (List (String × Json))
  | .obj fields => some fields
  | _ => none

/-- The items of an array. -/
def items? : Json → Option (List Json)
  | .arr items => some items
  | _ => none

/-- The text of a string. -/
def str? : Json → Option String
  | .str s => some s
  | _ => none

/-- The value of a truth value. -/
def bool? : Json → Option Bool
  | .bool b => some b
  | _ => none

/-- The greatest natural number that is read as one: it takes 64 binary digits. -/
def maxNat : Nat := 18446744073709551615

/-- The value of a decimal numeral. -/
def ofDigits (digits : List Char) : Nat :=
  digits.foldl (fun n c => 10 * n + (c.toNat - '0'.toNat)) 0

/-- A number written with digits alone, up to `maxNat`. -/
def nat? : Json → Option Nat
  | .num text =>
    let digits := text.toList
    if digits.all Char.isDigit && !digits.isEmpty && ofDigits digits ≤ maxNat then some (ofDigits digits) else none
  | _ => none

/-- The value of the field `key` of an object. -/
def get? (key : String) : Json → Option Json
  | .obj fields => fields.lookup key
  | _ => none

/-- The value `null`. -/
def isNull : Json → Bool
  | .null => true
  | _ => false

/-- `null`, or an object without fields. -/
def isVoid : Json → Bool
  | .null => true
  | .obj fields => fields.isEmpty
  | _ => false

/-- The name of a symbol: a string, or the only key of an object with an empty value. -/
def symbol? (isEmpty : Json → Bool) : Json → Option String
  | .str s => some s
  | .obj [(s, value)] => if isEmpty value then some s else none
  | _ => none

/-- The fields of a record: those of an object, or the items of an array, which stand for the fields `names` in their
order.  An array leaves out no more than the fields after the first `required`. -/
def record? (names : List String) (required : Nat) : Json → Option (List (String × Json))
  | .obj fields => some fields
  | .arr items => if required ≤ items.length && items.length ≤ names.length then some (names.zip items) else none
  | _ => none

end Json

end Clausal
