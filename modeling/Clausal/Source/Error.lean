/-!
# Clausal.Source.Error — why a text could not be read

* `SourceError`: the error and its wording.
* `Found`: a place in a text where something else was expected; `Found.toError` gives it as line and column.
-/

namespace Clausal

/-- Why a file has no text. -/
inductive FileError where
  | missing
  | isDirectory
  /-- The path goes through something that is no directory. -/
  | notDirectory
  | nameTooLong
  | notUtf8
  | other (message : String)
  deriving DecidableEq, Repr

/-- The wording of a file error. -/
def FileError.message : FileError → String
  | .missing => "No such file or directory (os error 2)"
  | .isDirectory => "Is a directory (os error 21)"
  | .notDirectory => "Not a directory (os error 20)"
  | .nameTooLong => "File name too long (os error 36)"
  | .notUtf8 => "stream did not contain valid UTF-8"
  | .other message => message

/-- The text of a file with the given bytes. -/
def FileError.decode (bytes : ByteArray) : Except FileError String :=
  match String.fromUTF8? bytes with
  | some text => .ok text
  | none => .error .notUtf8

/-- Why a program or a query could not be read. -/
inductive SourceError where
  /-- The text does not follow the grammar. -/
  | malformed (line column : Nat) (message : String)
  /-- The file could not be read. -/
  | unreadable (path message : String)
  deriving DecidableEq, Repr

/-- The wording of a source error. -/
def SourceError.message : SourceError → String
  | .malformed line column message =>
    "syntax error at line " ++ toString line ++ ", column " ++ toString column ++ ": " ++ message
  | .unreadable path message => "cannot read " ++ path ++ ": " ++ message

namespace Source

/-- A place where `expected` was not found: what is left of the text from there on. -/
structure Found where
  expected : String
  rest : List Char
  deriving Repr

/-- What was found instead. -/
def Found.description (f : Found) : String :=
  match f.rest with
  | c :: _ => "`" ++ String.singleton c ++ "`"
  | [] => "end of input"

/-- The number of the line that follows the text `consumed`. -/
def lineAfter (consumed : List Char) : Nat :=
  consumed.count '\n' + 1

/-- The number of the column that follows the text `consumed`. -/
def columnAfter (consumed : List Char) : Nat :=
  (consumed.reverse.takeWhile (· != '\n')).length + 1

/-- The error at a place of the text `source`. -/
def Found.toError (source : List Char) (f : Found) : SourceError :=
  let consumed := source.take (source.length - f.rest.length)
  .malformed (lineAfter consumed) (columnAfter consumed) ("expected " ++ f.expected ++ ", found " ++ f.description)

end Source

end Clausal
