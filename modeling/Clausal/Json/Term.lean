import Clausal.Formation
import Clausal.Json.Basic

/-!
# Clausal.Json.Term — terms as JSON

A term is an object with its kind in the field `type`; the flag `negated` is written only if it is set, and read as
unset if it is missing.  Fields that are not asked for are skipped.  A term is also read from an array with the kind
first and then the fields in their order, and a kind inside another term also from its number.

* `TermKind`: the kinds with their names, numbers and fields.
* `Term.toJson`, `Term.ofJson?`: the two directions.  Reading looks at the shape only.
* `Term.decode`: reading followed by `Term.check`.
* `Term.toNodeJson`: a second form in which every node is an object with its kind as the only field.
-/

namespace Clausal

/-- The name of a quantifier in JSON. -/
def Quant.key : Quant → String
  | .exists => "exists"
  | .forall => "forall"

/-- The quantifier of a name. -/
def Quant.ofKey? (s : String) : Option Quant :=
  if s == "exists" then some .exists else if s == "forall" then some .forall else none

/-- The name of a connective in JSON. -/
def Connective.key : Connective → String
  | .and => "and"
  | .or => "or"
  | .implies => "implies"
  | .iff => "iff"

/-- The connective of a name. -/
def Connective.ofKey? (s : String) : Option Connective :=
  if s == "and" then some .and
  else if s == "or" then some .or
  else if s == "implies" then some .implies
  else if s == "iff" then some .iff
  else none

/-- The quantifier of a symbol. -/
def Quant.ofJson? (j : Json) : Option Quant :=
  (j.symbol? Json.isVoid).bind Quant.ofKey?

/-- The connective of a symbol. -/
def Connective.ofJson? (j : Json) : Option Connective :=
  (j.symbol? Json.isVoid).bind Connective.ofKey?

/-! ## Kinds -/

/-- The kinds of terms. -/
inductive TermKind where
  | literal
  | var
  | relation
  | function
  | quantifier
  | operator
  | freeClause
  deriving DecidableEq, Repr

namespace TermKind

/-- The kinds in the order of their numbers. -/
def all : List TermKind :=
  [.literal, .var, .relation, .function, .quantifier, .operator, .freeClause]

/-- The name of a kind in JSON. -/
def key : TermKind → String
  | .literal => "Literal"
  | .var => "Var"
  | .relation => "Relation"
  | .function => "Function"
  | .quantifier => "Quantifier"
  | .operator => "Operator"
  | .freeClause => "FreeClause"

/-- The fields of a term of the kind, in their order. -/
def fieldNames : TermKind → List String
  | .literal | .var => ["name", "negated"]
  | .relation => ["name", "args", "negated"]
  | .function => ["name", "arg", "negated"]
  | .quantifier => ["kind", "var", "predicate", "negated"]
  | .operator => ["connective", "left", "right", "negated"]
  | .freeClause => ["terms", "negated"]

/-- The kind of a name. -/
def ofKey? (s : String) : Option TermKind :=
  all.find? (·.key == s)

/-- The kind that a JSON value names; `inner` says whether it may do so by number. -/
def ofJson? (inner : Bool) : Json → Option TermKind
  | .str s => ofKey? s
  | .num text => if inner then (Json.num text).nat?.bind (all[·]?) else none
  | _ => none

end TermKind

namespace Json

theorem sizeOf_lookup {fields : List (String × Json)} {key : String} {j : Json} (h : fields.lookup key = some j) :
    sizeOf j < sizeOf fields := by
  induction fields with
  | nil => simp at h
  | cons f fs ih =>
    obtain ⟨k, v⟩ := f
    rw [List.lookup_cons] at h
    split at h
    · obtain rfl := Option.some.inj h
      simp only [List.cons.sizeOf_spec, Prod.mk.sizeOf_spec]
      omega
    · have := ih h
      simp only [List.cons.sizeOf_spec]
      omega

theorem sizeOf_lookup_zip {names : List String} {items : List Json} {key : String} {j : Json}
    (h : (names.zip items).lookup key = some j) : sizeOf j < sizeOf items := by
  induction names generalizing items with
  | nil => simp at h
  | cons name names ih =>
    cases items with
    | nil => simp at h
    | cons item items =>
      rw [List.zip_cons_cons, List.lookup_cons] at h
      split at h
      · obtain rfl := Option.some.inj h
        simp only [List.cons.sizeOf_spec]
        omega
      · have := ih h
        simp only [List.cons.sizeOf_spec]
        omega

/-- The kind of a term and its fields. -/
def termParts? (inner : Bool) : Json → Option (TermKind × List (String × Json))
  | .obj fields =>
    match (fields.lookup "type").bind (TermKind.ofJson? inner) with
    | some kind => some (kind, fields)
    | none => none
  | .arr (tag :: items) =>
    match TermKind.ofJson? inner tag with
    | some kind => if items.length ≤ kind.fieldNames.length then some (kind, kind.fieldNames.zip items) else none
    | none => none
  | _ => none

theorem sizeOf_part {inner : Bool} {j part : Json} {kind : TermKind} {fields : List (String × Json)} {key : String}
    (h : j.termParts? inner = some (kind, fields)) (hp : fields.lookup key = some part) : sizeOf part < sizeOf j := by
  unfold termParts? at h
  split at h
  · split at h
    · simp only [Option.some.injEq, Prod.mk.injEq] at h
      obtain ⟨rfl, rfl⟩ := h
      have := sizeOf_lookup hp
      simp only [Json.obj.sizeOf_spec]
      omega
    · simp at h
  · split at h
    · split at h
      · simp only [Option.some.injEq, Prod.mk.injEq] at h
        obtain ⟨rfl, rfl⟩ := h
        have := sizeOf_lookup_zip hp
        simp only [Json.arr.sizeOf_spec, List.cons.sizeOf_spec]
        omega
      · simp at h
    · simp at h
  · simp at h

theorem sizeOf_items {inner : Bool} {j : Json} {kind : TermKind} {fields : List (String × Json)} {key : String}
    {items : List Json} (h : j.termParts? inner = some (kind, fields)) (hp : fields.lookup key = some (.arr items)) :
    sizeOf items < sizeOf j := by
  have := sizeOf_part h hp
  simp only [Json.arr.sizeOf_spec] at this
  omega

/-- The text of a field. -/
def textField? (fields : List (String × Json)) (key : String) : Option String :=
  (fields.lookup key).bind str?

/-- The truth value of a field, `false` if it is missing. -/
def flagField? (fields : List (String × Json)) (key : String) : Option Bool :=
  match fields.lookup key with
  | none => some false
  | some j => j.bool?

/-- The field `type`. -/
def kindField (kind : TermKind) : String × Json :=
  ("type", .str kind.key)

/-- The field `negated`, if it is to be written. -/
def negatedField (neg : Bool) : List (String × Json) :=
  if neg then [("negated", .bool true)] else []

end Json

namespace Term

open Json (textField? flagField? kindField negatedField)

/-! ## Writing -/

mutual

/-- The JSON form of a term. -/
def toJson : Term → Json
  | .lit n a => .obj ([kindField .literal, ("name", .str a)] ++ negatedField n)
  | .var n x => .obj ([kindField .var, ("name", .str x)] ++ negatedField n)
  | .rel n a ts =>
    .obj ([kindField .relation, ("name", .str a), ("args", .arr (toJsonAll ts))] ++ negatedField n)
  | .fn n a t => .obj ([kindField .function, ("name", .str a), ("arg", toJson t)] ++ negatedField n)
  | .quant n q x t =>
    .obj ([kindField .quantifier, ("kind", .str q.key), ("var", .str x), ("predicate", toJson t)] ++
      negatedField n)
  | .conn n c l r =>
    .obj ([kindField .operator, ("connective", .str c.key), ("left", toJson l), ("right", toJson r)] ++
      negatedField n)
  | .freeClause n ts => .obj ([kindField .freeClause, ("terms", .arr (toJsonAll ts))] ++ negatedField n)

/-- The JSON forms of a list of terms. -/
def toJsonAll : List Term → List Json
  | [] => []
  | t :: ts => toJson t :: toJsonAll ts

end

/-! ## Reading -/

mutual

/-- The term of a JSON value, if it has the shape of one; `inner` says whether the value stands inside a term. -/
def read? (inner : Bool) (j : Json) : Option Term :=
  match _h : j.termParts? inner with
  | none => none
  | some (kind, fields) =>
    match flagField? fields "negated", kind with
    | some n, .literal => (textField? fields "name").map (.lit n)
    | some n, .var => (textField? fields "name").map (.var n)
    | some n, .relation =>
      match textField? fields "name", _hp : fields.lookup "args" with
      | some a, some (.arr items) => (readAll? items).map (.rel n a)
      | _, _ => none
    | some n, .function =>
      match textField? fields "name", _hp : fields.lookup "arg" with
      | some a, some t => (read? true t).map (.fn n a)
      | _, _ => none
    | some n, .quantifier =>
      match (fields.lookup "kind").bind Quant.ofJson?, textField? fields "var", _hp : fields.lookup "predicate" with
      | some q, some x, some t => (read? true t).map (.quant n q x)
      | _, _, _ => none
    | some n, .operator =>
      match (fields.lookup "connective").bind Connective.ofJson?, _hl : fields.lookup "left",
        _hr : fields.lookup "right" with
      | some c, some l, some r =>
        match read? true l, read? true r with
        | some l, some r => some (.conn n c l r)
        | _, _ => none
      | _, _, _ => none
    | some n, .freeClause =>
      match _hp : fields.lookup "terms" with
      | some (.arr items) => (readAll? items).map (.freeClause n)
      | _ => none
    | none, _ => none
termination_by sizeOf j
decreasing_by
  · exact Json.sizeOf_items _h _hp
  · exact Json.sizeOf_part _h _hp
  · exact Json.sizeOf_part _h _hp
  · exact Json.sizeOf_part _h _hl
  · exact Json.sizeOf_part _h _hr
  · exact Json.sizeOf_items _h _hp

/-- The terms of a list of JSON values inside a term. -/
def readAll? (js : List Json) : Option (List Term) :=
  match js with
  | [] => some []
  | j :: js =>
    match read? true j, readAll? js with
    | some t, some ts => some (t :: ts)
    | _, _ => none
termination_by sizeOf js

end

/-- The term of a JSON value, if it has the shape of one. -/
def ofJson? (j : Json) : Option Term :=
  read? false j

/-- Why a JSON value is not a term. -/
inductive DecodeError where
  /-- It does not have the shape of a term. -/
  | shape
  /-- The term is ill formed. -/
  | formation (e : FormationError)
  deriving Repr

/-- The well-formed term of a JSON value. -/
def decode (j : Json) : Except DecodeError Term :=
  match ofJson? j with
  | none => .error .shape
  | some t =>
    match t.check with
    | .ok () => .ok t
    | .error e => .error (.formation e)

/-! ## Nodes by kind -/

mutual

/-- The JSON form in which every node is an object with its kind as the only field. -/
def toNodeJson : Term → Json
  | .lit n a => .obj [(TermKind.literal.key, .obj [("name", .str a), ("negate", .bool n)])]
  | .var n x => .obj [(TermKind.var.key, .obj [("name", .str x), ("negate", .bool n)])]
  | .rel n a ts =>
    .obj [(TermKind.relation.key, .obj [("name", .str a), ("args", .arr (toNodeJsonAll ts)), ("negate", .bool n)])]
  | .fn n a t => .obj [(TermKind.function.key, .obj [("name", .str a), ("arg", toNodeJson t), ("negate", .bool n)])]
  | .quant n q x t =>
    .obj [(TermKind.quantifier.key, .obj [("kind", .str q.key),
      ("var", .obj [("name", .str x), ("negate", .bool false)]), ("predicate", toNodeJson t), ("negate", .bool n)])]
  | .conn n c l r =>
    .obj [(TermKind.operator.key, .obj [("connective", .str c.key), ("left", toNodeJson l), ("right", toNodeJson r),
      ("negate", .bool n)])]
  | .freeClause n ts => .obj [(TermKind.freeClause.key, .obj [("terms", .arr (toNodeJsonAll ts)), ("negate", .bool n)])]

/-- The node forms of a list of terms. -/
def toNodeJsonAll : List Term → List Json
  | [] => []
  | t :: ts => toNodeJson t :: toNodeJsonAll ts

end

end Term

end Clausal
