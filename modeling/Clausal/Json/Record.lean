import Clausal.Horn
import Clausal.Json.Term
import Clausal.Search.Answer

/-!
# Clausal.Json.Record — what is reported, as JSON

Clauses, knowledge bases, answers and the result of a query as records of terms and texts, with their JSON forms.  A
record is read from an object by field names, and fields that are not asked for are skipped; or it is read from an
array of its fields in their order.
-/

namespace Clausal

open Json (textField?)

/-- The items of a field, each read by `f`. -/
def Json.listField? {α : Type} (f : Json → Option α) (fields : List (String × Json)) (key : String) :
    Option (List α) := do
  (← (← fields.lookup key).items?).mapM f

/-! ## Clauses -/

/-- A clause with its text. -/
structure ClauseRecord where
  literals : List Term
  text : String

namespace ClauseRecord

/-- The record of a clause. -/
def ofClause (c : Clause) : ClauseRecord :=
  { literals := c.members, text := c.render }

/-- The JSON form. -/
def toJson (r : ClauseRecord) : Json :=
  .obj [("literals", .arr (r.literals.map Term.toJson)), ("text", .str r.text)]

/-- Reads the JSON form. -/
def ofJson? (j : Json) : Option ClauseRecord := do
  let fields ← j.record? ["literals", "text"] 2
  return { literals := ← Json.listField? Term.ofJson? fields "literals", text := ← textField? fields "text" }

end ClauseRecord

/-- The clauses of a knowledge base. -/
structure BaseRecord where
  clauses : List ClauseRecord

namespace BaseRecord

/-- The record of a knowledge base of Horn clauses. -/
def ofHornBase (kb : HornBase) : BaseRecord :=
  { clauses := kb.clauses.map fun h => .ofClause h.clause }

/-- The JSON form. -/
def toJson (r : BaseRecord) : Json :=
  .obj [("clauses", .arr (r.clauses.map ClauseRecord.toJson))]

/-- Reads the JSON form. -/
def ofJson? (j : Json) : Option BaseRecord := do
  let fields ← j.record? ["clauses"] 1
  return { clauses := ← Json.listField? ClauseRecord.ofJson? fields "clauses" }

end BaseRecord

/-! ## Answers -/

/-- An answer with its text. -/
structure AnswerRecord where
  term : Term
  text : String
  bindings : List (String × Term)

namespace AnswerRecord

/-- The record of an answer. -/
def ofAnswer (a : Answer) : AnswerRecord :=
  { term := a.term, text := a.term.render, bindings := a.bindings.toList }

/-- The JSON form; without bindings there is no field for them. -/
def toJson (r : AnswerRecord) : Json :=
  let bindings := r.bindings.map fun b => (b.1, b.2.toJson)
  .obj ([("term", r.term.toJson), ("text", .str r.text)] ++
    if bindings.isEmpty then [] else [("bindings", .obj bindings)])

/-- Reads the bindings of an answer, none if the field is missing. -/
def bindings? (fields : List (String × Json)) : Option (List (String × Term)) :=
  match fields.lookup "bindings" with
  | none => some []
  | some j => do (← j.fields?).mapM fun b => return (b.1, ← Term.ofJson? b.2)

/-- Reads the JSON form. -/
def ofJson? (j : Json) : Option AnswerRecord := do
  let fields ← j.record? ["term", "text", "bindings"] 2
  return {
    term := ← Term.ofJson? (← fields.lookup "term"), text := ← textField? fields "text",
    bindings := ← bindings? fields }

end AnswerRecord

/-- The result of a query, with the knowledge base if it was asked for. -/
structure QueryRecord where
  query : String
  provable : Bool
  answers : List AnswerRecord
  kb : Option BaseRecord

namespace QueryRecord

/-- The JSON form; without a knowledge base there is no field for it. -/
def toJson (r : QueryRecord) : Json :=
  .obj ([("query", .str r.query), ("provable", .bool r.provable), ("answers", .arr (r.answers.map AnswerRecord.toJson))]
    ++ match r.kb with
      | some kb => [("kb", kb.toJson)]
      | none => [])

/-- Reads the knowledge base of a result; the field may be missing from an object, or `null`. -/
def kb? (fields : List (String × Json)) : Option (Option BaseRecord) :=
  match fields.lookup "kb" with
  | none | some .null => some none
  | some j => (BaseRecord.ofJson? j).map some

/-- Reads the JSON form. -/
def ofJson? (j : Json) : Option QueryRecord := do
  let fields ← j.record? ["query", "provable", "answers", "kb"] 4
  return {
    query := ← textField? fields "query", provable := ← (← fields.lookup "provable").bool?,
    answers := ← Json.listField? AnswerRecord.ofJson? fields "answers", kb := ← kb? fields }

end QueryRecord

/-! ## Other forms -/

/-- The JSON form of a clause with its terms as nodes. -/
def Clause.toNodeJson (c : Clause) : Json :=
  .obj [("terms", .arr (Term.toNodeJsonAll c.members)), ("negate", .bool c.negated)]

/-- The JSON form of a substitution as a map; variables are no keys of JSON objects, so only the empty one has it. -/
def Subst.toNodeJson? (s : Subst) : Option Json :=
  if s.entries.isEmpty then some (.obj [("map", .obj [])]) else none

end Clausal
