import Clausal.Source.Error
import Clausal.Source.Lexis
import Clausal.Theory

/-!
# Clausal.Source.Program — programs and queries

The grammar, with layout allowed before every token except between a name and its `(`:

* a statement is `compound .` or `compound :- compound, …, compound .`;
* a compound is a name, or a name with a bracketed list of at least one argument;
* an argument is a compound, a variable, or a list `[…]` of arguments;
* a query is a variable or a compound, with or without a final `.`.

A list `[a, b]` is the relation `list(a, b)`, and `[]` the constant `list`.  A rule says that the conjunction of its
goals implies its head.  The variables of a statement are universally bound, the first one outermost.

* `Source.compound`, `Source.argument`: the readers, which give a term, no term, or a place where something is wrong.
* `Program.parse`, `parseQuery`.
-/

namespace Clausal

namespace Source

/-- What comes of reading at a place. -/
inductive Reading (α : Type) where
  /-- A value and the text after it. -/
  | ok (value : α) (rest : List Char)
  /-- Nothing of the kind starts here. -/
  | miss
  /-- Something of the kind starts here and goes wrong. -/
  | fail (place : Found)

/-- Reads on after a value. -/
def Reading.andThen {α β : Type} (r : Reading α) (f : α → List Char → Reading β) : Reading β :=
  match r with
  | .ok a rest => f a rest
  | .miss => .miss
  | .fail p => .fail p

/-- What must start here: to miss it is an error at the next token. -/
def Reading.required {α : Type} (expected : String) (s : List Char) (r : Reading α) : Reading α :=
  match r with
  | .miss => .fail ⟨expected, skipLayout s⟩
  | r => r

/-- Reads the character `c`, which must be the next token. -/
def punctuation (c : Char) (s : List Char) : Reading Unit :=
  let s := skipLayout s
  if s.head? == some c then .ok () s.tail else .fail ⟨"`" ++ String.singleton c ++ "`", s⟩

/-- The relation or constant that a list of arguments stands for. -/
def applied (name : String) (args : List Term) : Term :=
  if args.isEmpty then .lit false name else .rel false name args

/-- The name that lists go by. -/
def listName : String := "list"

mutual

/-- A name, or a name with its arguments.  The first argument must be there. -/
def compound : Nat → List Char → Reading Term
  | 0, _ => .miss
  | fuel + 1, s =>
    match word? startsName s with
    | none => .miss
    | some (name, '(' :: s) =>
      ((argument fuel s).required "argument" s).andThen fun t s =>
        (furtherArguments fuel s).andThen fun ts s =>
          (punctuation ')' s).andThen fun _ s => .ok (.rel false name (t :: ts)) s
    | some (name, s) => .ok (.lit false name) s

/-- A list, a variable or a compound. -/
def argument : Nat → List Char → Reading Term
  | 0, _ => .miss
  | fuel + 1, s =>
    match skipLayout s with
    | '[' :: s =>
      match argument fuel s with
      | .fail p => .fail p
      | .miss => (punctuation ']' s).andThen fun _ s => .ok (applied listName []) s
      | .ok t s =>
        (furtherArguments fuel s).andThen fun ts s =>
          (punctuation ']' s).andThen fun _ s => .ok (applied listName (t :: ts)) s
    | s =>
      match word? startsVariable s with
      | some (x, s) => .ok (.var false x) s
      | none => compound fuel s

/-- Any number of arguments, each after a comma.  A comma without an argument is left to what follows. -/
def furtherArguments : Nat → List Char → Reading (List Term)
  | 0, s => .ok [] s
  | fuel + 1, s =>
    match skipLayout s with
    | ',' :: r =>
      match argument fuel r with
      | .ok t r => (furtherArguments fuel r).andThen fun ts r => .ok (t :: ts) r
      | .miss => .ok [] s
      | .fail p => .fail p
    | _ => .ok [] s

end

/-- Any number of goals, each after a comma.  A comma without a goal is left to what follows. -/
def furtherGoals (fuel : Nat) : Nat → List Char → Reading (List Term)
  | 0, s => .ok [] s
  | n + 1, s =>
    match skipLayout s with
    | ',' :: r =>
      match compound fuel (skipLayout r) with
      | .ok t r => (furtherGoals fuel n r).andThen fun ts r => .ok (t :: ts) r
      | .miss => .ok [] s
      | .fail p => .fail p
    | _ => .ok [] s

/-- The goals of a rule, which come after `:-`; no goals if there is none. -/
def body (fuel : Nat) (s : List Char) : Reading (List Term) :=
  match skipLayout s with
  | ':' :: '-' :: s =>
    ((compound fuel (skipLayout s)).required "goal" s).andThen fun t s =>
      (furtherGoals fuel fuel s).andThen fun ts s => .ok (t :: ts) s
  | _ => .ok [] s

/-- The formula of a fact or a rule. -/
def rule (head : Term) : List Term → Term
  | [] => head
  | g :: gs => .implies (Term.joinRight .and g gs) head

/-- A fact or a rule. -/
def statement (fuel : Nat) (s : List Char) : Reading Term :=
  (compound fuel (skipLayout s)).andThen fun head s =>
    (body fuel s).andThen fun goals s =>
      (punctuation '.' s).andThen fun _ s => .ok (rule head goals).close s

/-- Statements, as many as there are. -/
def statements (fuel : Nat) : Nat → List Char → Reading (List Term)
  | 0, s => .ok [] s
  | n + 1, s =>
    match statement fuel s with
    | .ok t r => (statements fuel n r).andThen fun ts r => .ok (t :: ts) r
    | .miss => .ok [] s
    | .fail p => .fail p

/-- A query. -/
def query (fuel : Nat) (s : List Char) : Reading Term :=
  let s := skipLayout s
  match word? startsVariable s with
  | some (x, s) => .ok (.var false x) s
  | none => (compound fuel s).required "query" s

/-- The text after an optional full stop. -/
def skipStop (s : List Char) : List Char :=
  match skipLayout s with
  | '.' :: r => r
  | _ => s

/-- A number of reading steps that is enough for the text: two for every character. -/
def fuelFor (s : List Char) : Nat :=
  2 * s.length + 2

/-- The value of a reading that must be followed by nothing but layout. -/
def complete {α : Type} (source : List Char) (what : String) (r : Reading α) : Except SourceError α :=
  match r with
  | .ok a rest => if (skipLayout rest).isEmpty then .ok a else .error (Found.toError source ⟨what, skipLayout rest⟩)
  | .miss => .error (Found.toError source ⟨what, source⟩)
  | .fail p => .error (p.toError source)

end Source

/-- The statements of a program, in the order of the text. -/
structure Program where
  statements : List Term
  deriving Repr

namespace Program

/-- Reads a program. -/
def parse (text : String) : Except SourceError Program :=
  let s := text.toList
  return ⟨← Source.complete s "end of input" (Source.statements (Source.fuelFor s) (Source.fuelFor s) s)⟩

/-- Reads a program from the file `path` with the given content. -/
def parseFile (path : String) (content : Except FileError String) : Except SourceError Program :=
  match content with
  | .ok text => parse text
  | .error e => .error (.unreadable path e.message)

/-- The theory that the statements make. -/
def theory (p : Program) : Theory :=
  .ofStatements p.statements

end Program

/-- Reads a query, whose variables stay free. -/
def parseQuery (text : String) : Except SourceError Term :=
  let s := text.toList
  Source.complete s "end of query" <|
    (Source.query (Source.fuelFor s) s).andThen fun t r => .ok t (Source.skipStop r)

end Clausal
