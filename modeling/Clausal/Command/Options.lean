import Clausal.Json.Basic

/-!
# Clausal.Command.Options — the command line

A command line is read from left to right.  Options are long (`--query q`, `--query=q`) or short (`-q q`, `-qq`,
`-q=q`), short ones without a value can be grouped (`-al2`), and after `--` everything is a file name.  An option is
given at most once, `-v` apart; a value that is an argument of its own does not start with `-`.

* `Options`: what a run of the program is asked for.
* `Command.read`: a run, the version, the usage, or a mistake in the command line.
-/

namespace Clausal

/-- What a run is asked for. -/
structure Options where
  /-- The program file. -/
  file : Option String
  /-- The query, read from the standard input if it is missing. -/
  query : Option String
  /-- All answers are wanted. -/
  all : Bool
  /-- The number of answers wanted. -/
  limit : Option Nat
  /-- The file with the limits of the search. -/
  config : Option String
  /-- The result is to be printed as JSON. -/
  json : Bool
  /-- The clauses are to be printed first. -/
  showKb : Bool
  /-- How often more log output was asked for. -/
  verbosity : Nat
  deriving Repr

/-- A command line understood. -/
inductive Command where
  | run (options : Options)
  | version
  | usage
  deriving Repr

namespace Options

/-- Nothing asked for yet. -/
def start : Options :=
  { file := none, query := none, all := false, limit := none, config := none, json := false, showKb := false,
    verbosity := 0 }

/-- The options that take a value. -/
inductive Valued where
  | query
  | limit
  | config
  deriving DecidableEq, Repr

/-- The options that take none. -/
inductive Flag where
  | all
  | json
  | showKb
  | verbose
  | version
  | usage
  deriving DecidableEq, Repr

/-- The option of a long name. -/
def long? (name : String) : Option (Valued ⊕ Flag) :=
  match name with
  | "query" => some (.inl .query)
  | "limit" => some (.inl .limit)
  | "config" => some (.inl .config)
  | "all" => some (.inr .all)
  | "json" => some (.inr .json)
  | "show-kb" => some (.inr .showKb)
  | "verbose" => some (.inr .verbose)
  | "version" => some (.inr .version)
  | "help" => some (.inr .usage)
  | _ => none

/-- The option of a short name. -/
def short? (name : Char) : Option (Valued ⊕ Flag) :=
  match name with
  | 'q' => some (.inl .query)
  | 'l' => some (.inl .limit)
  | 'c' => some (.inl .config)
  | 'a' => some (.inr .all)
  | 'v' => some (.inr .verbose)
  | 'V' => some (.inr .version)
  | 'h' => some (.inr .usage)
  | _ => none

/-- A number of answers: decimal digits, with or without a plus sign, up to `Json.maxNat`. -/
def count? (text : String) : Option Nat :=
  let digits :=
    match text.toList with
    | '+' :: s => s
    | s => s
  if digits.all Char.isDigit && !digits.isEmpty && Json.ofDigits digits ≤ Json.maxNat then some (Json.ofDigits digits)
  else none

/-- The options with the value of one of them set; `none` if it was set before or the value does not fit. -/
def setValue (o : Options) (option : Valued) (value : String) : Option Options :=
  match option with
  | .query => if o.query.isSome then none else some { o with query := some value }
  | .limit =>
    match o.limit, count? value with
    | none, some n => some { o with limit := some n }
    | _, _ => none
  | .config => if o.config.isSome || value.isEmpty then none else some { o with config := some value }

/-- The options with the file set; `none` if it was set before or has no name. -/
def setFile (o : Options) (name : String) : Option Options :=
  if o.file.isSome || name.isEmpty then none else some { o with file := some name }

/-- What a flag comes to: new options, or the end of reading; `none` if it was given before. -/
def setFlag (o : Options) (flag : Flag) : Option (Options ⊕ Command) :=
  match flag with
  | .all => if o.all then none else some (.inl { o with all := true })
  | .json => if o.json then none else some (.inl { o with json := true })
  | .showKb => if o.showKb then none else some (.inl { o with showKb := true })
  | .verbose => some (.inl { o with verbosity := o.verbosity + 1 })
  | .version => some (.inr .version)
  | .usage => some (.inr .usage)

end Options

namespace Command

open Options

/-- What reading one argument comes to. -/
inductive Reading where
  /-- New options. -/
  | options (o : Options)
  /-- An option whose value is the next argument. -/
  | needsValue (o : Options) (option : Valued)
  /-- The end of reading. -/
  | done (c : Command)
  /-- A mistake. -/
  | mistake

/-- The result of setting a value. -/
def Reading.ofOptions? : Option Options → Reading
  | some o => .options o
  | none => .mistake

/-- Reads an argument `--name` or `--name=value`, without its dashes. -/
def readLong (o : Options) (arg : List Char) : Reading :=
  let name := String.ofList (arg.takeWhile (· != '='))
  match long? name, arg.dropWhile (· != '=') with
  | some (.inl option), _ :: value => .ofOptions? (o.setValue option (String.ofList value))
  | some (.inl option), [] => .needsValue o option
  | some (.inr flag), [] =>
    match o.setFlag flag with
    | some (.inl o) => .options o
    | some (.inr c) => .done c
    | none => .mistake
  | _, _ => .mistake

/-- Reads a group of short options, without its dash. -/
def readShort (o : Options) : List Char → Reading
  | [] => .options o
  | c :: rest =>
    match short? c with
    | some (.inl option) =>
      match rest with
      | [] => .needsValue o option
      | '=' :: value => .ofOptions? (o.setValue option (String.ofList value))
      | value => .ofOptions? (o.setValue option (String.ofList value))
    | some (.inr flag) =>
      match o.setFlag flag with
      | some (.inl o) => readShort o rest
      | some (.inr c) => .done c
      | none => .mistake
    | none => .mistake

/-- Reads an argument on its own. -/
def readArgument (o : Options) (arg : String) : Reading :=
  match arg.toList with
  | '-' :: '-' :: name => readLong o name
  | ['-'] => .ofOptions? (o.setFile arg)
  | '-' :: group => readShort o group
  | _ => .ofOptions? (o.setFile arg)

/-- The argument cannot be the value of an option. -/
def looksLikeOption (arg : String) : Bool :=
  arg.toList.head? == some '-' && arg != "-"

/-- Reads the remaining arguments; `none` is a mistake. -/
def readAll (o : Options) : List String → Option Command
  | [] => if o.file.isSome then some (.run o) else none
  | "--" :: files => (files.foldlM setFile o).bind fun o => if o.file.isSome then some (.run o) else none
  | arg :: rest =>
    match readArgument o arg with
    | .options o => readAll o rest
    | .done c => some c
    | .mistake => none
    | .needsValue o option =>
      match rest with
      | [] => none
      | value :: rest =>
        if looksLikeOption value then none
        else
          match o.setValue option value with
          | some o => readAll o rest
          | none => none

/-- Reads a command line; `none` is a mistake. -/
def read (args : List String) : Option Command :=
  readAll Options.start args

end Command

end Clausal
