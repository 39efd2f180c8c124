import Clausal.Json.Term
import Clausal.Proofs.Term.Formation

/-!
# Clausal.Proofs.Json.RoundTrip — terms through JSON and back

Writing and reading are two recursions over the seven kinds of terms.  Reading accepts more than is written: fields in
any order and beside others, a flag that is left out, arrays.  What it accepts has the shape of a term, and the check
says whether it is one.

* `Term.IsObject`: the fields that are written for a term.
* `read?_eq`: the reader without the proofs that its calls get smaller.
* `ofJson?_toJson`: what is written is read as the term it was, whatever its flags.
* `decode_eq`: reading and checking is building anew, by the checked constructors, what was read.
* `json_round_trip`: the two directions together, and which error is reported.
-/

namespace Clausal.Term

open Json (textField? flagField? kindField negatedField)

/-! ## Writing -/

section Writing

/-- The kind of a term. -/
def kind : Term → TermKind
  | .lit .. => .literal
  | .var .. => .var
  | .rel .. => .relation
  | .fn .. => .function
  | .quant .. => .quantifier
  | .conn .. => .operator
  | .freeClause .. => .freeClause

/-- The fields of the object of a term: its kind, and the fields of that kind in their order, the flag only if it is
set. -/
structure IsObject (t : Term) (fields : List (String × Json)) : Prop where
  keys : fields.map Prod.fst = "type" :: t.kind.fieldNames.filter fun key => key != "negated" || t.isNegated
  type : fields.lookup "type" = some (.str t.kind.key)
  negated : fields.lookup "negated" = if t.isNegated then some (.bool true) else none

theorem exists_isObject (t : Term) : ∃ fields, t.toJson = .obj fields ∧ t.IsObject fields := by
  cases t with
  | _ n =>
    refine ⟨_, by rw [toJson], ?_⟩
    cases n <;> constructor <;>
      simp [kind, TermKind.fieldNames, isNegated, kindField, negatedField, List.lookup_cons]

@[simp] theorem toJsonAll_eq_map (ts : List Term) : toJsonAll ts = ts.map toJson := by
  induction ts with
  | nil => rfl
  | cons t ts ih => rw [toJsonAll, ih, List.map_cons]

end Writing

/-! ## Reading -/

section Reading

theorem kind_ofJson? (inner : Bool) (k : TermKind) : TermKind.ofJson? inner (.str k.key) = some k := by
  cases k <;> decide +revert

theorem quant_ofJson? (q : Quant) : Quant.ofJson? (.str q.key) = some q := by
  cases q <;> decide

theorem connective_ofJson? (c : Connective) : Connective.ofJson? (.str c.key) = some c := by
  cases c <;> decide

/-- The term of a kind with the given flag and fields. -/
def ofFields? (fields : List (String × Json)) (n : Bool) : TermKind → Option Term
  | .literal => (textField? fields "name").map (.lit n)
  | .var => (textField? fields "name").map (.var n)
  | .relation =>
    match textField? fields "name", fields.lookup "args" with
    | some a, some (.arr items) => (readAll? items).map (.rel n a)
    | _, _ => none
  | .function =>
    match textField? fields "name", fields.lookup "arg" with
    | some a, some t => (read? true t).map (.fn n a)
    | _, _ => none
  | .quantifier =>
    match (fields.lookup "kind").bind Quant.ofJson?, textField? fields "var", fields.lookup "predicate" with
    | some q, some x, some t => (read? true t).map (.quant n q x)
    | _, _, _ => none
  | .operator =>
    match (fields.lookup "connective").bind Connective.ofJson?, fields.lookup "left", fields.lookup "right" with
    | some c, some l, some r =>
      match read? true l, read? true r with
      | some l, some r => some (.conn n c l r)
      | _, _ => none
    | _, _, _ => none
  | .freeClause =>
    match fields.lookup "terms" with
    | some (.arr items) => (readAll? items).map (.freeClause n)
    | _ => none

/-- The reader takes a value apart into a kind, a flag and fields. -/
theorem read?_eq {inner : Bool} {j : Json} {kind : TermKind} {fields : List (String × Json)}
    (h : j.termParts? inner = some (kind, fields)) :
    read? inner j = (flagField? fields "negated").bind fun n => ofFields? fields n kind := by
  rw [read?]
  split
  · next hnone => simp [hnone] at h
  · next kind' fields' hparts =>
    rw [h] at hparts
    cases hparts
    cases flagField? fields "negated" with
    | none => rfl
    | some n =>
      cases kind with
      | literal | var => rfl
      | relation | function | quantifier | operator | freeClause =>
        -- both sides look at the same fields, one of them with a proof beside
        simp only [Option.bind_some, ofFields?]
        split <;> split <;> simp_all

/-- What is written for a term is read by the fields of its kind. -/
theorem read?_of_toJson {t : Term} {fields : List (String × Json)} (h : t.toJson = .obj fields) (inner : Bool) :
    read? inner t.toJson = ofFields? fields t.isNegated t.kind := by
  obtain ⟨fields', heq, hobject⟩ := t.exists_isObject
  rw [h] at heq
  cases heq
  have hparts : (Json.obj fields).termParts? inner = some (t.kind, fields) := by
    simp [Json.termParts?, hobject.type, kind_ofJson?]
  have hflag : flagField? fields "negated" = some t.isNegated := by
    rw [flagField?, hobject.negated]
    cases t.isNegated <;> rfl
  rw [h, read?_eq hparts, hflag, Option.bind_some]

theorem readAll?_map {ts : List Term} (h : ∀ t ∈ ts, read? true t.toJson = some t) :
    readAll? (ts.map toJson) = some ts := by
  induction ts with
  | nil => rw [List.map_nil, readAll?]
  | cons t ts ih =>
    obtain ⟨ht, hts⟩ := List.forall_mem_cons.mp h
    rw [List.map_cons, readAll?, ht, ih hts]

/-- What is written is read as the term it was, at the outside and inside of a term. -/
theorem read?_toJson (inner : Bool) (t : Term) : read? inner t.toJson = some t := by
  induction t using induct generalizing inner with
  | lit n a | var n x =>
    refine (read?_of_toJson (by rw [toJson]) inner).trans ?_
    simp [kind, ofFields?, textField?, kindField, Json.str?, isNegated, List.lookup_cons]
  | rel n a ts ih =>
    have hargs := readAll?_map fun t ht => ih t ht true
    refine (read?_of_toJson (by rw [toJson]) inner).trans ?_
    simp [kind, ofFields?, textField?, kindField, Json.str?, isNegated, List.lookup_cons, hargs]
  | fn n a t ih =>
    refine (read?_of_toJson (by rw [toJson]) inner).trans ?_
    simp [kind, ofFields?, textField?, kindField, Json.str?, isNegated, List.lookup_cons, ih]
  | quant n q x t ih =>
    refine (read?_of_toJson (by rw [toJson]) inner).trans ?_
    simp [kind, ofFields?, textField?, kindField, Json.str?, isNegated, List.lookup_cons, quant_ofJson?, ih]
  | conn n c l r ihl ihr =>
    refine (read?_of_toJson (by rw [toJson]) inner).trans ?_
    simp [kind, ofFields?, kindField, isNegated, List.lookup_cons, connective_ofJson?, ihl, ihr]
  | freeClause n ts ih =>
    have hmembers := readAll?_map fun t ht => ih t ht true
    refine (read?_of_toJson (by rw [toJson]) inner).trans ?_
    simp [kind, ofFields?, kindField, isNegated, List.lookup_cons, hmembers]

theorem ofJson?_toJson (t : Term) : ofJson? t.toJson = some t :=
  read?_toJson false t

end Reading

/-! ## Decoding -/

section Decoding

variable {v : Json} {j t : Term}

/-- Reading and checking is building anew what was read. -/
theorem decode_eq (h : ofJson? v = some j) : decode v = j.rebuild.mapError .formation := by
  rw [decode, h, rebuild_eq]
  dsimp only
  cases j.check with
  | ok _ => rfl
  | error e => rfl

theorem decode_eq_ok_iff (h : ofJson? v = some j) : decode v = .ok t ↔ t = j ∧ j.WellFormed := by
  rw [decode, h, ← check_eq_ok_iff]
  dsimp only
  cases j.check with
  | ok _ => simp [eq_comm]
  | error e => simp

/-- A well-formed term is written as an object of its kind and read as what it was.  What has the shape of a term is one
exactly if it is well formed, and then it is written back as a value of that shape; else the first flaw is reported. -/
theorem json_round_trip :
    (∀ t : Term, t.WellFormed → (∃ fields, t.toJson = .obj fields ∧ t.IsObject fields) ∧ decode t.toJson = .ok t) ∧
      ∀ (v : Json) (j : Term), ofJson? v = some j →
        decode v = j.rebuild.mapError .formation ∧
        ((∃ t, decode v = .ok t) ↔ j.WellFormed) ∧
        (∀ t, decode v = .ok t → t = j ∧ ofJson? t.toJson = some j) ∧
        (¬ j.WellFormed → ∃ e, j.parts.findSome? flaw? = some e ∧ decode v = .error (.formation e)) := by
  constructor
  · intro t ht
    exact ⟨t.exists_isObject, (decode_eq_ok_iff (ofJson?_toJson t)).mpr ⟨rfl, ht⟩⟩
  · intro v j hread
    refine ⟨decode_eq hread, ?_, ?_, ?_⟩
    · simp only [decode_eq_ok_iff hread, exists_eq_left]
    · intro t ht
      obtain ⟨rfl, -⟩ := (decode_eq_ok_iff hread).mp ht
      exact ⟨rfl, ofJson?_toJson t⟩
    · intro hflawed
      obtain ⟨e, he⟩ := Option.ne_none_iff_exists'.mp (mt wellFormed_iff.mpr hflawed)
      have hcheck : j.check = .error e := check_eq_error_iff.mpr he
      exact ⟨e, he, by rw [decode, hread]; simp only [hcheck]⟩

/-- A quantifier with a negated occurrence of its variable goes through JSON and back; of two flaws, one inside a
conjunction on the left and one on the right, the left one is reported. -/
theorem json_round_trip_signed :
    decode (toJson (.quant true .forall "X" (.rel false "p" [.var true "X"]))) =
        .ok (.quant true .forall "X" (.rel false "p" [.var true "X"])) ∧
      decode (toJson (.conn false .and (.quant false .exists "X" (.lit false "a")) (.rel false "p" []))) =
        .error (.formation (.unboundQuantifier "X" "a")) := by
  refine ⟨(json_round_trip.1 _ (check_eq_ok_iff.mp rfl)).2, ?_⟩
  obtain ⟨-, -, -, hflawed⟩ := json_round_trip.2 _ _ (ofJson?_toJson (.conn false .and
    (.quant false .exists "X" (.lit false "a")) (.rel false "p" [])))
  obtain ⟨e, he, herror⟩ := hflawed fun h => h.applied false "p" [] (by simp [parts, partsAll]) rfl
  rw [herror]
  cases he
  rfl

end Decoding

end Clausal.Term
