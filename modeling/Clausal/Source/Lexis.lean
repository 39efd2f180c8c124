import Clausal.Text.Alphanumeric
import Clausal.Text.Lowercase
import Clausal.Text.Uppercase

/-!
# Clausal.Source.Lexis — layout and words

* `skipLayout`: blanks (space, tab, carriage return, line feed), comments from `%` to the end of the line, and
  comments from `/*` to the first `*/` after it.  A block comment that is never closed is no layout.
* `word?`: a maximal run of letters, numbers and `_`.  A name starts with a lower-case letter or an ASCII digit, a
  variable with an upper-case letter or `_`.
-/

namespace Clausal.Source

/-- Space, tab, carriage return and line feed. -/
def isSpace (c : Char) : Bool :=
  c == ' ' || c == '\t' || c == '\r' || c == '\n'

mutual

/-- The text after all layout at its start. -/
def skipLayout : List Char → List Char
  | [] => []
  | '/' :: '*' :: s => skipBlock ('/' :: '*' :: s) s
  | c :: s => if isSpace c then skipLayout s else if c == '%' then skipLine s else c :: s

/-- The text after the rest of a line comment and the layout that follows it. -/
def skipLine : List Char → List Char
  | [] => []
  | c :: s => if c == '\n' then skipLayout s else skipLine s

/-- The text after the rest of a block comment and the layout that follows it; `start` if it is not closed. -/
def skipBlock (start : List Char) : List Char → List Char
  | [] => start
  | '*' :: '/' :: s => skipLayout s
  | _ :: s => skipBlock start s

end

/-- A character inside a word. -/
def isWordChar (c : Char) : Bool :=
  Text.isAlphanumeric c || c == '_'

/-- The first character of a name. -/
def startsName (c : Char) : Bool :=
  Text.isLowercase c || c.isDigit

/-- The first character of a variable. -/
def startsVariable (c : Char) : Bool :=
  Text.isUppercase c || c == '_'

/-- The word at the start of the text, if its first character fits, and the text after it. -/
def word? (starts : Char → Bool) : List Char → Option (String × List Char)
  | [] => none
  | c :: s =>
    if starts c then some (String.ofList (c :: s.takeWhile isWordChar), s.dropWhile isWordChar) else none

end Clausal.Source
