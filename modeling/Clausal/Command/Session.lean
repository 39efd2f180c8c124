import Clausal.Command.Options
import Clausal.Json.Limits
import Clausal.Json.Record
import Clausal.Json.Writer
import Clausal.Source.Program
import Clausal.Text.Blank

/-!
# Clausal.Command.Session — a run of the program

A run loads the limits and the program, asks for the query if it was not given, searches, and prints the answers.

* `Session.load`: limits and clauses, from the text of the files.
* `Session.preface`, `Session.report`: what is printed before and after the search.
* `Command.execute`: a whole run as a function of the files and the standard input.
-/

namespace Clausal

/-- Why a run failed: what was being done, if there is more to say than the cause, and the cause. -/
structure Failure where
  context : Option String
  cause : String
  deriving Repr

/-- The text of a failure.  The lines of a cause below a context are indented. -/
def Failure.report (f : Failure) : String :=
  match f.context with
  | none => "Error: " ++ f.cause ++ "\n"
  | some context =>
    "Error: " ++ context ++ "\n\nCaused by:\n    " ++
      String.ofList (f.cause.toList.flatMap fun c => if c == '\n' then "\n    ".toList else [c]) ++ "\n"

/-- The wording of an error in the limits. -/
def LimitsError.message : LimitsError → String
  | .unreadable => "IO error"
  | .invalid => "invalid configuration"

/-- A program loaded. -/
structure Session where
  options : Options
  limits : Limits
  kb : HornBase

namespace Session

/-- The text of a file by its name. -/
abbrev Files := String → Except FileError String

/-- The limits that the options name. -/
def loadLimits (o : Options) (files : Files) : Except Failure Limits :=
  match o.config with
  | none => .ok .standard
  | some path =>
    match Limits.parseFile (files path) with
    | .ok l => .ok l
    | .error e => .error ⟨some ("failed to load config " ++ path), e.message⟩

/-- The program that the options name. -/
def loadProgram (path : String) (files : Files) : Except Failure Program :=
  match Program.parseFile path (files path) with
  | .ok p => .ok p
  | .error e => .error ⟨some ("failed to parse " ++ path), e.message⟩

/-- Loads limits and clauses; `none` for a program without statements. -/
def load (o : Options) (files : Files) : Except Failure (Option Session) := do
  let limits ← loadLimits o files
  let program ← loadProgram (o.file.getD "") files
  if program.statements.isEmpty then return none
  match program.theory.hornBase with
  | .ok kb => return some { options := o, limits := limits, kb := kb }
  | .error e => .error ⟨some "program does not normalize to Horn clauses", e.message⟩

/-- What is printed for a program without statements. -/
def emptyNotice : String := "Empty input file. Exiting...\n"

/-- What is printed to ask for the query. -/
def prompt : String := "input query: "

/-- The clauses, one a line, if they are to be printed. -/
def preface (s : Session) : String :=
  if s.options.showKb && !s.options.json then String.join (s.kb.clauses.map fun h => h.render ++ "\n") else ""

/-- The query in the first line of a text, without white space around it. -/
def firstLine (input : String) : String :=
  String.ofList (Text.trim (input.toList.takeWhile (· != '\n')))

/-- Reads the query. -/
def readQuery (text : String) : Except Failure Term :=
  match parseQuery text with
  | .ok t => .ok t
  | .error e => .error ⟨some "invalid query", e.message⟩

/-- The number of answers wanted: as many as the limit says, else all or one. -/
def wanted (s : Session) : Option Nat :=
  match s.options.limit with
  | some n => some n
  | none => if s.options.all then none else some 1

/-- The result of a query as a record. -/
def record (s : Session) (query : Term) (answers : List Answer) : QueryRecord :=
  { query := query.render, provable := !answers.isEmpty, answers := answers.map .ofAnswer,
    kb := if s.options.showKb then some (.ofHornBase s.kb) else none }

/-- The result of a query, as JSON or as a line for the query and a line for every answer. -/
def report (s : Session) (query : Term) (answers : List Answer) : String :=
  if s.options.json then (s.record query answers).toJson.pretty ++ "\n"
  else
    "backward_chain\x7b " ++ query.render ++ " \x7d: " ++ (if answers.isEmpty then "false" else "true") ++ "\n" ++
      String.join (answers.map fun a => "result: " ++ a.render ++ "\n")

/-- The failure of a search. -/
def searchFailure (e : SolveError) : Failure :=
  ⟨none, e.message⟩

end Session

/-- What a run leaves behind. -/
structure Transcript where
  exit : Nat
  stdout : String
  stderr : String
  deriving Repr

namespace Transcript

/-- A run that came to its end. -/
def success (stdout : String) : Transcript := ⟨0, stdout, ""⟩

/-- A run that failed after printing `stdout`. -/
def failure (stdout : String) (f : Failure) : Transcript := ⟨1, stdout, f.report⟩

end Transcript

namespace Command

/-- The name and version of the program. -/
def versionText : String := "mente 0.1.0\n"

/-- How the program is called. -/
def usageText : String :=
  "Usage: mente [OPTIONS] <FILE>\n\nOptions: -q <QUERY>, -a, -l <LIMIT>, -c <CONFIG>, --json, --show-kb, -v, -h, -V\n"

/-- The part of a run after the program was loaded. -/
def executeSession (s : Session) (input : String) (fuel : Nat) : Option Transcript :=
  let asked := s.options.query.isNone
  let printed := s.preface ++ if asked then Session.prompt else ""
  match Session.readQuery (s.options.query.getD (Session.firstLine input)) with
  | .error f => some (.failure printed f)
  | .ok query =>
    (proveAll s.kb s.limits query s.wanted fuel).map fun result =>
      match result with
      | .ok answers => .success (printed ++ s.report query answers)
      | .error e => .failure printed (Session.searchFailure e)

/-- A whole run, if `fuel` turns are enough for the search. -/
def execute (args : List String) (files : Session.Files) (input : String) (fuel : Nat) : Option Transcript :=
  match read args with
  | none => some ⟨2, "", ""⟩
  | some .version => some (.success versionText)
  | some .usage => some (.success usageText)
  | some (.run o) =>
    match Session.load o files with
    | .error f => some (.failure "" f)
    | .ok none => some (.success Session.emptyNotice)
    | .ok (some s) => executeSession s input fuel

end Command

end Clausal
