import Clausal.Command.Session

/-!
# Clausal.Main — the program

The outer layer of the command line: it reads the files and the standard input, lets the clock run beside the search,
and prints what the session says.
-/

namespace Clausal.Main

/-- The text of a file.  A path that goes through a file or has too long a step cannot be opened; a directory can be
opened, and reading it is what fails. -/
def readFile (path : String) : IO (Except FileError String) := do
  try
    return FileError.decode (← IO.FS.readBinFile path)
  catch
    | .noFileOrDirectory .. => return .error .missing
    | .inappropriateType none .. => return .error .isDirectory
    | .inappropriateType (some _) .. => return .error .notDirectory
    | .invalidArgument (some _) .. => return .error .nameTooLong
    | e => return .error (.other e.toString)

/-- The files that the options name. -/
def readFiles (o : Options) : IO Session.Files := do
  let paths := o.file.toList ++ o.config.toList
  let contents ← paths.mapM readFile
  return fun path => ((paths.zip contents).lookup path).getD (.error .missing)

/-- The number of turns between two looks at the clock. -/
def turnsPerLook : Nat := 256

/-- Searches until the collection is complete. -/
partial def collect (s : Session) (started : Nat) (c : Collection) : IO (Except SolveError (List Answer)) := do
  let now ← IO.monoMsNow
  match c.advance s.kb s.limits ⟨false, now - started⟩ turnsPerLook with
  | .running c => collect s started c
  | .done answers => return .ok answers
  | .failed e => return .error e

/-- The query of the options, or a line of the standard input. -/
def askQuery (s : Session) : IO String := do
  match s.options.query with
  | some text => return text
  | none =>
    let out ← IO.getStdout
    out.putStr Session.prompt
    out.flush
    return Session.firstLine (← (← IO.getStdin).getLine)

/-- Reports a failure. -/
def fail (f : Failure) : IO UInt32 := do
  IO.eprint f.report
  return 1

/-- The part of a run after the program was loaded. -/
def runSession (s : Session) : IO UInt32 := do
  IO.print s.preface
  match Session.readQuery (← askQuery s) with
  | .error f => fail f
  | .ok query =>
    match ← collect s (← IO.monoMsNow) (.start query s.wanted) with
    | .error e => fail (Session.searchFailure e)
    | .ok answers =>
      IO.print (s.report query answers)
      return 0

/-- A run with the given options. -/
def runOptions (o : Options) : IO UInt32 := do
  match Session.load o (← readFiles o) with
  | .error f => fail f
  | .ok none =>
    IO.print Session.emptyNotice
    return 0
  | .ok (some s) => runSession s

end Clausal.Main

open Clausal in
/-- Answers the query of a command line. -/
def main (args : List String) : IO UInt32 := do
  match Command.read args with
  | none =>
    IO.eprint Command.usageText
    return 2
  | some .version =>
    IO.print Command.versionText
    return 0
  | some .usage =>
    IO.print Command.usageText
    return 0
  | some (.run o) => Main.runOptions o
