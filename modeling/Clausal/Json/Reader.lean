import Clausal.Json.Basic

/-!
# Clausal.Json.Reader — reading JSON

`Json.parse?` reads exactly one JSON value with blanks around it.  A number keeps its text, and is refused if it is
beyond the range of double precision.  Half of a surrogate pair is no character, and a string with one is refused.

`Json.parseRecord?` reads a value of which only the outermost level is of interest.  What lies further inside need not
have a meaning: half of a surrogate pair is read there as the replacement character, and a number can have any size.
-/

namespace Clausal.Json

/-! ## Tokens -/

/-- The blanks of JSON. -/
def isSpace (c : Char) : Bool :=
  c == ' ' || c == '\n' || c == '\t' || c == '\r'

/-- The text after the blanks at its start. -/
def skipSpace (s : List Char) : List Char :=
  s.dropWhile isSpace

/-- The value of a hexadecimal digit. -/
def hexDigit? (c : Char) : Option Nat :=
  if c.isDigit then some (c.toNat - '0'.toNat)
  else if 'a' ≤ c && c ≤ 'f' then some (c.toNat - 'a'.toNat + 10)
  else if 'A' ≤ c && c ≤ 'F' then some (c.toNat - 'A'.toNat + 10)
  else none

/-- The value of four hexadecimal digits. -/
def hex4? (a b c d : Char) : Option Nat := do
  return (((← hexDigit? a) * 16 + (← hexDigit? b)) * 16 + (← hexDigit? c)) * 16 + (← hexDigit? d)

/-- The first half of a surrogate pair. -/
def isHighSurrogate (n : Nat) : Bool := 0xd800 ≤ n && n < 0xdc00

/-- The second half of a surrogate pair. -/
def isLowSurrogate (n : Nat) : Bool := 0xdc00 ≤ n && n < 0xe000

/-- The character that a code unit stands for by itself; half of a pair stands for none, or for the replacement
character if the reader is not strict. -/
def unitChar? (strict : Bool) (n : Nat) : Option Char :=
  if isHighSurrogate n || isLowSurrogate n then (if strict then none else some '\ufffd') else some (Char.ofNat n)

/-- The character of a surrogate pair. -/
def pairChar (high low : Nat) : Char :=
  Char.ofNat (0x10000 + (high - 0xd800) * 0x400 + (low - 0xdc00))

/-- The character of a one-letter escape. -/
def escaped? (c : Char) : Option Char :=
  match c with
  | '"' => some '"'
  | '\\' => some '\\'
  | '/' => some '/'
  | 'b' => some (Char.ofNat 8)
  | 'f' => some (Char.ofNat 12)
  | 'n' => some '\n'
  | 'r' => some '\r'
  | 't' => some '\t'
  | _ => none

/-- The rest of a string up to its closing quote; `done` holds the characters so far, last one first. -/
def string? (strict : Bool) (done : List Char) : List Char → Option (String × List Char)
  | [] => none
  | '"' :: s => some (String.ofList done.reverse, s)
  | '\\' :: 'u' :: a :: b :: c :: d :: '\\' :: 'u' :: a' :: b' :: c' :: d' :: s =>
    match hex4? a b c d with
    | none => none
    | some high =>
      match hex4? a' b' c' d' with
      | none => none
      | some low =>
        if isHighSurrogate high && isLowSurrogate low then string? strict (pairChar high low :: done) s
        else
          match unitChar? strict high with
          | some e => string? strict (e :: done) ('\\' :: 'u' :: a' :: b' :: c' :: d' :: s)
          | none => none
  | '\\' :: 'u' :: a :: b :: c :: d :: s =>
    match (hex4? a b c d).bind (unitChar? strict) with
    | some e => string? strict (e :: done) s
    | none => none
  | '\\' :: c :: s =>
    match escaped? c with
    | some e => string? strict (e :: done) s
    | none => none
  | c :: s => if c.toNat < 32 || c == '\\' then none else string? strict (c :: done) s

/-- The digits at the start of the text, at least one, and the text after them. -/
def digits? (s : List Char) : Option (List Char × List Char) :=
  let ds := s.takeWhile Char.isDigit
  if ds.isEmpty then none else some (ds, s.dropWhile Char.isDigit)

/-- The whole part of a number: no digit follows a leading zero. -/
def wholePart? (s : List Char) : Option (List Char × List Char) := do
  let (ds, rest) ← digits? s
  if ds.head? == some '0' && ds.length > 1 then none else some (ds, rest)

/-- The decimals of a number, if it has any. -/
def decimals? : List Char → Option (List Char × List Char)
  | '.' :: s => (digits? s).map fun (ds, rest) => ('.' :: ds, rest)
  | s => some ([], s)

/-- The exponent of a number, if it has one. -/
def exponent? : List Char → Option (List Char × List Char)
  | [] => some ([], [])
  | c :: s =>
    if c == 'e' || c == 'E' then
      match s with
      | '+' :: s => (digits? s).map fun (ds, rest) => (c :: '+' :: ds, rest)
      | '-' :: s => (digits? s).map fun (ds, rest) => (c :: '-' :: ds, rest)
      | s => (digits? s).map fun (ds, rest) => (c :: ds, rest)
    else some ([], c :: s)

/-- The power of ten that an exponent stands for. -/
def power : List Char → Int
  | [] => 0
  | _ :: '-' :: ds => -(ofDigits ds : Int)
  | _ :: '+' :: ds => ofDigits ds
  | _ :: ds => ofDigits ds

/-- The least natural number that is nearer to infinity than to a number of double precision. -/
def rangeEnd : Nat := Nat.pow 2 1024 - Nat.pow 2 970

/-- The number with these parts is below `rangeEnd`.  Without its leading zeros it has its first digit at the place
`order`, which settles all but the numbers with 309 digits before the point; only for these powers are formed. -/
def inRange (whole decimals exponent : List Char) : Bool :=
  let ds := (whole ++ decimals.tail).dropWhile (· == '0')
  let shift := power exponent - decimals.tail.length
  let order := ds.length + shift
  ds.isEmpty || order < 309 ||
    order == 309 && ofDigits ds * Nat.pow 10 shift.toNat < rangeEnd * Nat.pow 10 (-shift).toNat

/-- The text of a number, which is in range if the reader is strict. -/
def number? (strict : Bool) (s : List Char) : Option (String × List Char) := do
  let (sign, s) := if s.head? == some '-' then (['-'], s.tail) else ([], s)
  let (whole, s) ← wholePart? s
  let (decimals, s) ← decimals? s
  let (exponent, s) ← exponent? s
  if strict && !inRange whole decimals exponent then none
  return (String.ofList (sign ++ whole ++ decimals ++ exponent), s)

/-! ## Values -/

mutual

/-- A value at the start of the text, after blanks, and the text after it.  `outer` says whether strings, keys and
numbers at this level are read strictly, `inner` says it for everything inside. -/
def value? (outer inner : Bool) : Nat → List Char → Option (Json × List Char)
  | 0, _ => none
  | fuel + 1, s =>
    match skipSpace s with
    | 'n' :: 'u' :: 'l' :: 'l' :: s => some (.null, s)
    | 't' :: 'r' :: 'u' :: 'e' :: s => some (.bool true, s)
    | 'f' :: 'a' :: 'l' :: 's' :: 'e' :: s => some (.bool false, s)
    | '"' :: s => (string? outer [] s).map fun (text, s) => (.str text, s)
    | '[' :: s =>
      match skipSpace s with
      | ']' :: s => some (.arr [], s)
      | s => (moreItems? inner fuel s).map fun (items, s) => (.arr items, s)
    | '\x7b' :: s =>
      match skipSpace s with
      | '\x7d' :: s => some (.obj [], s)
      | s => (moreFields? outer inner fuel s).map fun (fields, s) => (.obj fields, s)
    | s => (number? outer s).map fun (text, s) => (.num text, s)

/-- One item or more, up to the closing bracket. -/
def moreItems? (inner : Bool) : Nat → List Char → Option (List Json × List Char)
  | 0, _ => none
  | fuel + 1, s =>
    match value? inner inner fuel s with
    | none => none
    | some (item, s) =>
      match skipSpace s with
      | ']' :: s => some ([item], s)
      | ',' :: s => (moreItems? inner fuel s).map fun (items, s) => (item :: items, s)
      | _ => none

/-- One field or more, up to the closing brace. -/
def moreFields? (outer inner : Bool) : Nat → List Char → Option (List (String × Json) × List Char)
  | 0, _ => none
  | fuel + 1, s =>
    match skipSpace s with
    | '"' :: s =>
      match string? outer [] s with
      | none => none
      | some (key, s) =>
        match skipSpace s with
        | ':' :: s =>
          match value? inner inner fuel s with
          | none => none
          | some (value, s) =>
            match skipSpace s with
            | '\x7d' :: s => some ([(key, value)], s)
            | ',' :: s => (moreFields? outer inner fuel s).map fun (fields, s) => ((key, value) :: fields, s)
            | _ => none
        | _ => none
    | _ => none

end

/-- Reads a text that holds one value and blanks.  Every level and every comma takes a character, so that twice the
length bounds the number of reading steps. -/
def parseWith? (outer inner : Bool) (text : String) : Option Json :=
  let s := text.toList
  match value? outer inner (2 * s.length + 2) s with
  | some (j, rest) => if (skipSpace rest).isEmpty then some j else none
  | none => none

/-- Reads a text that holds one value. -/
def parse? (text : String) : Option Json :=
  parseWith? true true text

/-- Reads a text that holds one record, strictly on its outermost level only. -/
def parseRecord? (text : String) : Option Json :=
  parseWith? true false text

end Clausal.Json
