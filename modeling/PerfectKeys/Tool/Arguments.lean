import PerfectKeys.Numeral
import PerfectKeys.Reference

/-!
# Command line arguments

A command line is read in two steps.

* `Word.split` recognises the form of each argument: an option with or without a value, a
  plain word, or the `--` where options end and what is behind it. An option's value may be
  joined to it by `=` or be the next argument, unless that looks like an option itself.
* `Request.ofArguments` goes through the words from the left. Every option may be given once.
  A question for help or for the version is answered as soon as it is reached. Behind the
  word `help` there may be only the name of what help is asked for.

Options for the derivation of keys may stand before `magic`. They have to be well formed, and
they are part of the command line, though no search looks at them.
-/

namespace PerfectKeys

/-! ## Words -/

/-- What an argument is by its form. -/
inductive Word where
  /-- An option spelled out, with its value if it has one. -/
  | long (name : String) (value : Option String)
  /-- Options of one letter each, of which this is the first. -/
  | short (letter : Char)
  /-- A word that is no option. -/
  | bare (text : String)
  /-- The end of the options. -/
  | separator
  /-- A word behind the end of the options. -/
  | operand (text : String)
  deriving DecidableEq

namespace Word

/-- The options that have a value. -/
def takesValue (name : String) : Bool := name ∈ ["input", "format", "start", "limit"]

/-- Whether an argument is no value and no plain word. A lone dash is both. -/
def looksLikeOption (argument : String) : Bool :=
  argument.toList.head? = some '-' && argument ≠ "-"

/-- The form of a single argument. -/
def ofArgument (argument : String) : Word :=
  match argument.toList with
  | '-' :: '-' :: rest =>
      let name := String.ofList (rest.takeWhile (· ≠ '='))
      match rest.dropWhile (· ≠ '=') with
      | [] => .long name none
      | _ :: value => .long name (some (String.ofList value))
  | '-' :: letter :: _ => .short letter
  | _ => .bare argument

/-- The words of a command line. -/
def split : List String → List Word
  | [] => []
  | "--" :: rest => .separator :: rest.map .operand
  | argument :: rest =>
      match ofArgument argument with
      | .long name none =>
          if takesValue name then
            match rest with
            | [] => [.long name none]
            | value :: more =>
                if looksLikeOption value then .long name none :: split (value :: more)
                else .long name (some value) :: split more
          else .long name none :: split rest
      | word => word :: split rest

/-- The word as it was given. -/
def text : Word → String
  | long name none => s!"--{name}"
  | long name (some value) => s!"--{name}={value}"
  | short letter => s!"-{letter}"
  | separator => "--"
  | bare text | operand text => text

end Word

/-! ## Requests -/

/-- How results are written. -/
inductive Format where
  /-- Lines of text. -/
  | text
  /-- A JSON document. -/
  | json
  deriving DecidableEq

/-- The format that a word names. -/
def Format.ofName? : String → Option Format
  | "text" => some text
  | "json" => some json
  | _ => none

/-- What the derivation of keys is asked for, where a file is named by a path. -/
structure KeyRequest (Path : Type) where
  /-- The file with the names, if not those in use. -/
  input : Option Path
  /-- How the report is written. -/
  format : Format
  /-- Whether a collision counts as a failure. -/
  strict : Bool
  deriving DecidableEq

/-- What the search for a magic value is asked for. -/
structure MagicRequest where
  set : CodedSet
  /-- The first magic value, if not the known one. -/
  start : Option UInt64
  /-- How many values are tried at most, if that is limited. -/
  limit : Option UInt64
  /-- Whether the slots are listed, too. -/
  listing : Bool
  /-- How the table is written. -/
  format : Format
  deriving DecidableEq

/-- What a command line says. -/
structure CommandLine (Path : Type) where
  /-- The options for keys. -/
  keys : KeyRequest Path
  /-- The search that is asked for, if no keys are. -/
  magic : Option MagicRequest
  deriving DecidableEq

/-- The file that has to be read. -/
def CommandLine.inputPath? {Path : Type} (line : CommandLine Path) : Option Path :=
  match line.magic with
  | none => line.keys.input
  | some _ => none

/-- What the tool is asked for. -/
inductive Request where
  /-- Do as a command line says. -/
  | run (line : CommandLine String)
  | help
  | version
  deriving DecidableEq

/-- What is asked for behind options for keys: a search, or else help. -/
def Request.behind (keys : KeyRequest String) : Option MagicRequest → Request
  | none => help
  | some magic => run ⟨keys, some magic⟩

/-- Why a command line is refused. -/
inductive UsageError where
  /-- There is no place for this word. -/
  | unexpected (word : Word)
  /-- The option needs a value. -/
  | missingValue (name : String)
  /-- The option or the set cannot be this. -/
  | invalidValue (name value : String)
  /-- The option was given before. -/
  | repeated (name : String)
  /-- It was not said which set to search for. -/
  | missingSet
  deriving DecidableEq

/-- The error in words. -/
def UsageError.message : UsageError → String
  | unexpected word => s!"unexpected argument '{word.text}'"
  | missingValue name => s!"a value is required for '--{name}'"
  | invalidValue name value => s!"invalid value '{value}' for '{name}'"
  | repeated name => s!"the argument '--{name}' cannot be used multiple times"
  | missingSet => "the set to search a magic value for was not provided"

/-! ## Values -/

/-- The path that a word names. -/
def readPath? (text : String) : Option String := if text = "" then none else some text

/-- The value of an option that had none before. -/
def optionValue {α : Type} (name : String) (before : Option α) (value : Option String)
    (read? : String → Option α) : Except UsageError (Option α) :=
  match value with
  | none => .error (.missingValue name)
  | some text =>
      match read? text, before with
      | none, _ => .error (.invalidValue name text)
      | some _, some _ => .error (.repeated name)
      | some a, none => .ok (some a)

/-- A flag that was not set before, and has no value. -/
def flagValue (name : String) (before : Bool) (value : Option String) : Except UsageError Bool :=
  match value, before with
  | some _, _ => .error (.unexpected (.long name value))
  | none, true => .error (.repeated name)
  | none, false => .ok true

/-! ## Searching for a magic value -/

/-- What was said so far about a search for a magic value. -/
structure MagicOptions where
  set : Option CodedSet
  start : Option UInt64
  limit : Option UInt64
  listing : Bool
  format : Option Format
  deriving DecidableEq

namespace MagicOptions

/-- Nothing was said. -/
def none : MagicOptions := ⟨.none, .none, .none, false, .none⟩

/-- What one more word says. -/
def take (o : MagicOptions) (word : Word) : Except UsageError MagicOptions :=
  match word with
  | .long "start" value =>
      (optionValue "start" o.start value readWord?).map ({ o with start := · })
  | .long "limit" value =>
      (optionValue "limit" o.limit value readWord?).map ({ o with limit := · })
  | .long "format" value =>
      (optionValue "format" o.format value Format.ofName?).map ({ o with format := · })
  | .long "table" value => (flagValue "table" o.listing value).map ({ o with listing := · })
  | .bare name | .operand name =>
      if o.set.isSome then .error (.unexpected word)
      else (optionValue "set" o.set (some name) CodedSet.ofName?).map ({ o with set := · })
  | _ => .error (.unexpected word)

/-- The search that the rest of the words asks for, unless it asks for help. -/
def request (o : MagicOptions) : List Word → Except UsageError (Option MagicRequest)
  | [] =>
      match o.set with
      | .none => .error .missingSet
      | some set => .ok (some ⟨set, o.start, o.limit, o.listing, o.format.getD .text⟩)
  | .long "help" .none :: _ | .short 'h' :: _ => .ok .none
  | .separator :: rest => o.request rest
  | word :: rest => do (← o.take word).request rest

end MagicOptions

/-! ## Deriving keys -/

/-- What was said so far about the derivation of keys. -/
structure KeyOptions where
  input : Option String
  format : Option Format
  strict : Bool
  deriving DecidableEq

namespace KeyOptions

/-- Nothing was said. -/
def none : KeyOptions := ⟨.none, .none, false⟩

/-- What one more word says. -/
def take (o : KeyOptions) (word : Word) : Except UsageError KeyOptions :=
  match word with
  | .long "input" value =>
      (optionValue "input" o.input value readPath?).map ({ o with input := · })
  | .long "format" value =>
      (optionValue "format" o.format value Format.ofName?).map ({ o with format := · })
  | .long "strict" value => (flagValue "strict" o.strict value).map ({ o with strict := · })
  | _ => .error (.unexpected word)

/-- The derivation of keys that was asked for so far. -/
def keys (o : KeyOptions) : KeyRequest String := ⟨o.input, o.format.getD .text, o.strict⟩

/-- The request that the rest of the words makes. -/
def request (o : KeyOptions) : List Word → Except UsageError Request
  | [] => .ok (.run ⟨o.keys, .none⟩)
  | .long "help" .none :: _ | .short 'h' :: _ => .ok .help
  | .long "version" .none :: _ | .short 'V' :: _ => .ok .version
  | .bare "magic" :: rest => (MagicOptions.none.request rest).map (Request.behind o.keys)
  | [.bare "help"] | [.bare "help", .bare "magic"] | [.bare "help", .bare "help"] => .ok .help
  | .separator :: rest => o.request rest
  | word :: rest => do (← o.take word).request rest

end KeyOptions

/-- The request that a command line makes. -/
def Request.ofArguments (arguments : List String) : Except UsageError Request :=
  KeyOptions.none.request (Word.split arguments)

end PerfectKeys
