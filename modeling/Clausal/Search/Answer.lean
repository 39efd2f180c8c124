import Clausal.Search.Machine

/-!
# Clausal.Search.Answer — answers to a query

* `Answer`: the query as it was proved, with the bindings of its own variables.
* `Collection`: a search under way together with the answers found; `advance` carries it on for a given number of
  turns.
* `proveAll`, `solve`: the answers, or the first one, if the given number of turns is enough.
-/

namespace Clausal

/-- One proof of a query. -/
structure Answer where
  /-- The query under the answer substitution. -/
  term : Term
  /-- What the variables of the query stand for. -/
  bindings : Subst

namespace Answer

/-- The answer that the substitution `s` gives to `query`. -/
def ofSubst (query : Term) (s : Subst) : Answer :=
  { term := s.apply query, bindings := s.restrict query.freeVars }

/-- The text of an answer: the term, and the bindings if there are any. -/
def render (a : Answer) : String :=
  if a.bindings.entries.isEmpty then a.term.render else a.term.render ++ " " ++ a.bindings.render

end Answer

/-- A search that collects answers. -/
structure Collection where
  query : Term
  machine : Machine
  /-- The answers found, last one first. -/
  found : List Answer
  /-- The number of answers still wanted; `none` is all of them. -/
  wanted : Option Nat

/-- What a collection comes to. -/
inductive Collected where
  /-- There is more to do. -/
  | running (c : Collection)
  /-- All answers that were wanted, in the order in which they were found. -/
  | done (answers : List Answer)
  /-- The search was stopped. -/
  | failed (e : SolveError)

namespace Collection

/-- The search for up to `wanted` answers to `query`. -/
def start (query : Term) (wanted : Option Nat) : Collection :=
  { query := query, machine := .start query, found := [], wanted := wanted }

/-- Carries the search on for at most `fuel` turns. -/
def advance (kb : HornBase) (limits : Limits) (now : Signals) : Nat → Collection → Collected
  | 0, c => if c.wanted == some 0 then .done c.found.reverse else .running c
  | fuel + 1, c =>
    if c.wanted == some 0 then .done c.found.reverse
    else
      match c.machine.step kb limits now with
      | .running m => advance kb limits now fuel { c with machine := m }
      | .answer s m =>
        advance kb limits now fuel
          { c with machine := m, found := Answer.ofSubst c.query s :: c.found, wanted := c.wanted.map (· - 1) }
      | .stopped e _ => .failed e
      | .finished _ => .done c.found.reverse

end Collection

/-- The answers to `query`, at most `wanted` of them, if `fuel` turns are enough.  Nothing calls the search off. -/
def proveAll (kb : HornBase) (limits : Limits) (query : Term) (wanted : Option Nat) (fuel : Nat) :
    Option (Except SolveError (List Answer)) :=
  match (Collection.start query wanted).advance kb limits ⟨false, 0⟩ fuel with
  | .running _ => none
  | .done answers => some (.ok answers)
  | .failed e => some (.error e)

/-- The query as it is first proved, if `fuel` turns are enough to tell. -/
def solve (kb : HornBase) (limits : Limits) (query : Term) (fuel : Nat) : Option (Except SolveError (Option Term)) :=
  (proveAll kb limits query (some 1) fuel).map fun result => result.map fun answers => answers.head?.map (·.term)

end Clausal
