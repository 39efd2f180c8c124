import Clausal.Formation

/-!
# Clausal.Clause — clauses and knowledge bases

* `Clause`: a disjunction of atomic terms.  The members form a set, up to `Term.same`, kept in order of insertion;
  the whole clause may be negated.
* `KnowledgeBase`: a set of clauses in order of insertion.  Two clauses are the same if their flags agree and they
  have the same members in any order.
-/

namespace Clausal

/-- A disjunction of atomic terms, or the negation of one. -/
structure Clause where
  negated : Bool
  members : List Term
  deriving Repr, Inhabited

namespace Clause

/-- The clause of the given members; a member that is not atomic is refused. -/
def ofList (ts : List Term) : Except FormationError Clause :=
  match ts.find? (fun t => !t.isAtomic) with
  | some t => .error (.notCnf t.render)
  | none => .ok { negated := false, members := Distinct.ofList Term.same ts }

/-- The clause of one member. -/
def unit (t : Term) : Except FormationError Clause :=
  ofList [t]

/-- The same members with the flag flipped. -/
def negate (c : Clause) : Clause :=
  { c with negated := !c.negated }

/-- `item` is a member or lies inside one. -/
def contains (c : Clause) (item : Term) : Bool :=
  Term.isPartOfAny item c.members

/-- The clause without the member `item`. -/
def without (c : Clause) (item : Term) : Clause :=
  { c with members := Distinct.erase Term.same c.members item }

/-- The members of `c`, then the new ones of `d`, with the flag of `c`. -/
def union (c d : Clause) : Clause :=
  { c with members := Distinct.union Term.same c.members d.members }

/-- The members without a negation sign. -/
def positives (c : Clause) : List Term :=
  c.members.filter (fun t => !t.isNegated)

/-- The negated members. -/
def negatives (c : Clause) : List Term :=
  c.members.filter Term.isNegated

/-- Equality of clauses: the same flag and the same set of members. -/
def same (c d : Clause) : Bool :=
  c.negated == d.negated && Distinct.sameMembers Term.same c.members d.members

/-- The text of a clause, such as `(¬q ∨ p)`. -/
def render (c : Clause) : String :=
  sign c.negated ++ "(" ++ " ∨ ".intercalate (c.members.map Term.render) ++ ")"

/-- What is left of `c` once `l` holds: `c` without the complement of `l`. -/
def resolveUnit (c : Clause) (l : Term) : Clause :=
  c.without l.negate

end Clause

/-- A conjunction of clauses, in order of insertion. -/
structure KnowledgeBase where
  clauses : List Clause
  deriving Repr, Inhabited

namespace KnowledgeBase

/-- No clauses. -/
def empty : KnowledgeBase := ⟨[]⟩

/-- A clause equal to `c` is present. -/
def contains (kb : KnowledgeBase) (c : Clause) : Bool :=
  Distinct.mem Clause.same kb.clauses c

/-- `kb` with `c` at its end, unless an equal clause is present. -/
def insert (kb : KnowledgeBase) (c : Clause) : KnowledgeBase :=
  ⟨Distinct.insert Clause.same kb.clauses c⟩

/-- `kb` without the clause equal to `c`. -/
def erase (kb : KnowledgeBase) (c : Clause) : KnowledgeBase :=
  ⟨Distinct.erase Clause.same kb.clauses c⟩

/-- The clauses of `kb`, then the new ones of `other`. -/
def union (kb other : KnowledgeBase) : KnowledgeBase :=
  ⟨Distinct.union Clause.same kb.clauses other.clauses⟩

/-- The given clauses, of equal ones the first. -/
def ofList (cs : List Clause) : KnowledgeBase :=
  ⟨Distinct.ofList Clause.same cs⟩

/-- Takes `c` in and tells whether it is new. -/
def add (c : Clause) : StateM KnowledgeBase Bool :=
  modifyGet fun kb => (!kb.contains c, kb.insert c)

/-- Takes `c` out and tells whether it was there. -/
def remove (c : Clause) : StateM KnowledgeBase Bool :=
  modifyGet fun kb => (kb.contains c, kb.erase c)

/-- Equality of knowledge bases: the same set of clauses. -/
def same (a b : KnowledgeBase) : Bool :=
  Distinct.sameMembers Clause.same a.clauses b.clauses

/-- The text of a knowledge base, such as `((p) ∧ (¬q ∨ r))`. -/
def render (kb : KnowledgeBase) : String :=
  "(" ++ " ∧ ".intercalate (kb.clauses.map Clause.render) ++ ")"

end KnowledgeBase

end Clausal
