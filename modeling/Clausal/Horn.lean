import Clausal.Clause

/-!
# Clausal.Horn — Horn clauses

A Horn clause has exactly one member without a negation sign, its head; the other members are its body.  Read as a
rule, it says that the head follows from the body members taken positively.
-/

namespace Clausal

/-- A clause whose only un-negated member is `head`. -/
structure HornClause where
  clause : Clause
  head : Term
  positives_eq : clause.positives = [head]

namespace HornClause

/-- The clause read as a rule, if it has exactly one un-negated member. -/
def ofClause (c : Clause) : Except FormationError HornClause :=
  match h : c.positives with
  | [head] => .ok ⟨c, head, h⟩
  | ps => .error (.notHorn c.render ps.length)

/-- The negated members, in clause order. -/
def body (h : HornClause) : List Term :=
  h.clause.negatives

/-- What has to be proved before the head: the body members without their signs. -/
def premises (h : HornClause) : List Term :=
  h.body.map Term.positive

/-- The rule has no premises. -/
def isFact (h : HornClause) : Bool :=
  h.body.isEmpty

/-- The rule without premises. -/
def fact (head : Term) : Except FormationError HornClause := do
  ofClause (← Clause.unit head)

/-- The rule `head` from `goals`, whose signs do not matter. -/
def rule (head : Term) (goals : List Term) : Except FormationError HornClause := do
  ofClause (← Clause.ofList (head :: goals.map (fun g => g.positive.negate)))

/-- Equality of the clauses. -/
def same (a b : HornClause) : Bool :=
  a.clause.same b.clause

/-- The text of the clause. -/
def render (h : HornClause) : String :=
  h.clause.render

end HornClause

/-- A knowledge base of Horn clauses, in order of insertion. -/
structure HornBase where
  clauses : List HornClause

namespace HornBase

/-- No clauses. -/
def empty : HornBase := ⟨[]⟩

/-- An equal clause is present. -/
def contains (kb : HornBase) (h : HornClause) : Bool :=
  Distinct.mem HornClause.same kb.clauses h

/-- `kb` with `h` at its end, unless an equal clause is present. -/
def insert (kb : HornBase) (h : HornClause) : HornBase :=
  ⟨Distinct.insert HornClause.same kb.clauses h⟩

/-- Adds a clause if it is Horn. -/
def insertClause (kb : HornBase) (c : Clause) : Except FormationError HornBase :=
  return kb.insert (← HornClause.ofClause c)

/-- Takes `h` in and tells whether it is new. -/
def add (h : HornClause) : StateM HornBase Bool :=
  modifyGet fun kb => (!kb.contains h, kb.insert h)

/-- Takes a clause in if it is Horn. -/
def addClause (c : Clause) : ExceptT FormationError (StateM HornBase) Bool := do
  let h ← HornClause.ofClause c
  add h

/-- The given rules, of equal ones the first. -/
def ofList (hs : List HornClause) : HornBase :=
  ⟨Distinct.ofList HornClause.same hs⟩

/-- The knowledge base, if all its clauses are Horn; otherwise the error of the first that is not. -/
def ofKnowledgeBase (kb : KnowledgeBase) : Except FormationError HornBase :=
  kb.clauses.foldlM insertClause empty

/-- The clauses as they stand. -/
def toKnowledgeBase (kb : HornBase) : KnowledgeBase :=
  KnowledgeBase.ofList (kb.clauses.map (·.clause))

/-- The text of the clauses. -/
def render (kb : HornBase) : String :=
  kb.toKnowledgeBase.render

end HornBase

end Clausal
