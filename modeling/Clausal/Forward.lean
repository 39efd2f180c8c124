import Clausal.Horn

/-!
# Clausal.Forward — forward chaining

Derives what follows from a knowledge base whose variables are taken as plain symbols: starting from the facts, a rule
fires once all its premises have been derived.  Every rule fires at most once, so their number bounds the work.
-/

namespace Clausal

namespace Forward

/-- A rule with the premises that have not been derived yet. -/
structure Pending where
  head : Term
  premises : List Term
  deriving Repr

/-- The rules of a knowledge base. -/
def rules (kb : HornBase) : List Pending :=
  kb.clauses.map fun h => { head := h.head, premises := h.premises }

/-- The rule once `t` has been derived. -/
def Pending.discharge (t : Term) (p : Pending) : Pending :=
  { p with premises := p.premises.filter (!·.same t) }

/-- No premise is left. -/
def Pending.isReady (p : Pending) : Bool :=
  p.premises.isEmpty

/-- Whether `query` is derived when up to `fuel` terms of the agenda are worked off. -/
def derives (query : Term) : Nat → List Term → List Pending → Bool
  | _, [], _ => false
  | 0, _ :: _, _ => false
  | fuel + 1, t :: agenda, waiting =>
    if t.same query then true
    else
      let waiting := waiting.map (·.discharge t)
      derives query fuel ((waiting.filter Pending.isReady).map (·.head) ++ agenda)
        (waiting.filter (!·.isReady))

end Forward

/-- Whether the un-negated query follows from the knowledge base. -/
def HornBase.entails (kb : HornBase) (query : Term) : Bool :=
  let rules := Forward.rules kb
  Forward.derives query.positive kb.clauses.length ((rules.filter Forward.Pending.isReady).map (·.head))
    (rules.filter (!·.isReady))

end Clausal
