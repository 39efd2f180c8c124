import Clausal.Term.Display
import Clausal.Term.Variables

/-!
# Clausal.Formation — well-formed terms

A relation has at least one argument, and a quantifier binds a variable that occurs free in its body.

* `FormationError`: the ways in which a term or a clause can be ill formed; `message` is the wording.
* `Term.relation`, `Term.quantified`: the checked constructors.
* `Term.check`: the first violation inside a term, children before parents and left before right.
-/

namespace Clausal

/-- Why a term, a clause or a rule was refused. -/
inductive FormationError where
  /-- A symbol applied to the wrong number of arguments. -/
  | arity (name expected : String) (got : Nat)
  /-- A quantifier over something that is not a variable. -/
  | binderNotVariable (text : String)
  /-- A quantifier whose variable is not free in its body. -/
  | unboundQuantifier (binder body : String)
  /-- A clause with no head, or with several. -/
  | notHorn (clause : String) (positives : Nat)
  /-- A free clause without members where a formula is needed. -/
  | emptyFreeClause
  /-- Something other than a conjunction of clauses. -/
  | notCnf (text : String)
  deriving DecidableEq, Repr

/-- The wording of a formation error. -/
def FormationError.message : FormationError → String
  | .arity name expected got =>
    "wrong number of arguments for `" ++ name ++ "`: expected " ++ expected ++ ", got " ++ toString got
  | .binderNotVariable text => "quantifier binder must be a variable, got `" ++ text ++ "`"
  | .unboundQuantifier binder body =>
    "quantifier variable `" ++ binder ++ "` does not occur free in `" ++ body ++ "`"
  | .notHorn clause positives =>
    "not a Horn clause (expected exactly one positive literal, found " ++ toString positives ++ "): " ++ clause
  | .emptyFreeClause => "empty free clause nested inside a formula"
  | .notCnf text => "formula is not in conjunctive normal form: " ++ text

namespace Term

/-- `name(args)`; without arguments it would be a constant, not a relation. -/
def relation (name : String) (args : List Term) : Except FormationError Term :=
  if args.isEmpty then .error (.arity name "at least 1" 0) else .ok (.rel false name args)

/-- A quantifier over the variable `binder`, whose sign is dropped, if it occurs free in `body`. -/
def quantified (kind : Quant) (binder body : Term) : Except FormationError Term :=
  match binder with
  | .var _ x => if body.occursFree x then .ok (.quant false kind x body) else .error (.unboundQuantifier x body.render)
  | other => .error (.binderNotVariable other.render)

mutual

/-- The first violation of well-formedness, if there is one. -/
def check : Term → Except FormationError Unit
  | .lit .. | .var .. => .ok ()
  | .rel _ name args => do
    checkAll args
    if args.isEmpty then .error (.arity name "at least 1" 0)
  | .fn _ _ t => check t
  | .quant _ _ x t => do
    check t
    if !t.occursFree x then .error (.unboundQuantifier x t.render)
  | .conn _ _ l r => do
    check l
    check r
  | .freeClause _ ts => checkAll ts

/-- The first violation in a list of terms. -/
def checkAll : List Term → Except FormationError Unit
  | [] => .ok ()
  | t :: ts => do
    check t
    checkAll ts

end

end Term

/-- A relation symbol with a fixed number of arguments. -/
structure RelationSymbol where
  name : String
  arity : Nat
  deriving Repr

/-- The symbol applied to its arguments; of none, the constant of that name. -/
def RelationSymbol.apply (r : RelationSymbol) (args : List Term) : Except FormationError Term :=
  if args.length != r.arity then .error (.arity r.name (toString r.arity) args.length)
  else if args.isEmpty then .ok (Term.const r.name)
  else Term.relation r.name args

/-- A function symbol, always of one argument. -/
structure FunctionSymbol where
  name : String
  deriving Repr

/-- The symbol applied to its one argument. -/
def FunctionSymbol.apply (f : FunctionSymbol) (args : List Term) : Except FormationError Term :=
  match args with
  | [t] => .ok (.fn false f.name t)
  | _ => .error (.arity f.name "1" args.length)

end Clausal
