import Clausal.ClauseForm

/-!
# Clausal.Theory — a formula or its clauses

A theory is given by a formula that is still to be brought into clause form, or by the clauses it came to.
-/

namespace Clausal

/-- A formula, or the knowledge base it came to. -/
inductive Theory where
  | formula (t : Term)
  | clauses (kb : KnowledgeBase)
  deriving Repr

namespace Theory

/-- The theory of a list of statements. -/
def ofStatements (ts : List Term) : Theory :=
  .formula (.freeClause false ts)

/-- The theory given by clauses; one that already is so stays as it is. -/
def toClauses : Theory → Except FormationError Theory
  | .formula t => return .clauses (← t.clauseForm)
  | .clauses kb => return .clauses kb

/-- The formula, unless the theory is given by clauses. -/
def formula? : Theory → Option Term
  | .formula t => some t
  | .clauses _ => none

/-- The clauses, if the theory is given by them. -/
def clauses? : Theory → Option KnowledgeBase
  | .formula _ => none
  | .clauses kb => some kb

/-- The Horn clauses of the theory. -/
def hornBase : Theory → Except FormationError HornBase
  | .formula t => t.hornForm
  | .clauses kb => HornBase.ofKnowledgeBase kb

/-- Equality of theories: the same formula, or the same set of clauses. -/
def same : Theory → Theory → Bool
  | .formula t, .formula u => t.same u
  | .clauses a, .clauses b => a.same b
  | _, _ => false

/-- The text of the formula or of the clauses. -/
def render : Theory → String
  | .formula t => t.render
  | .clauses kb => kb.render

end Theory

end Clausal
