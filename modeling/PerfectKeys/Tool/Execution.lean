import PerfectKeys.Tool.Arguments
import PerfectKeys.Tool.InputFile
import PerfectKeys.Verbosity

/-!
# What the tool does

A command line is answered by a text for the standard output, a text for the standard error
and an exit status. What the answer depends on besides is given with it: the filter for the
log, what the files hold, and the words that others have for what is wrong with a file. So the
answer is a value.

The status is zero for success and one for a failure. A collision is a failure only for a
strict request, and even then the report is printed as usual.
-/

namespace PerfectKeys

variable {Path : Type}

/-- What the tool finds around it. -/
structure Surroundings (Path : Type) where
  /-- How a path is shown. -/
  display : Path → String
  /-- What a file holds, or why it cannot be read, in the words of the system. -/
  contents : Path → Except String (List Octet)
  /-- What is wrong with octets that are no lists of names, in the words of the JSON reader. -/
  complaint : List Octet → String

/-- Why there is nothing to print. -/
inductive Failure where
  /-- The file cannot be read. -/
  | unreadable (path cause : String)
  /-- The file does not hold lists of names. -/
  | malformed (path cause : String)
  /-- One of the names is no mnemonic. -/
  | mnemonic (cause : MnemonicError)
  /-- There is no table. -/
  | search (cause : SearchError)
  deriving DecidableEq

/-- The failure in words. -/
def Failure.message : Failure → String
  | unreadable path cause | malformed path cause => s!"{path}: {cause}"
  | mnemonic cause => cause.message
  | search cause => cause.message

/-- Something to print. -/
structure Printout where
  text : String
  /-- Whether it is what was hoped for. -/
  success : Bool
  deriving DecidableEq

/-- A report in a format. -/
def Report.render (r : Report) : Format → String
  | .text => r.text
  | .json => r.json.indented ++ "\n"

namespace KeyRequest

/-- The names to derive keys for. -/
def names (r : KeyRequest Path) (s : Surroundings Path) : Except Failure NameLists :=
  match r.input with
  | none => .ok Reference.lists
  | some path =>
      match s.contents path with
      | .error cause => .error (.unreadable (s.display path) cause)
      | .ok octets =>
          match NameLists.ofOctets? octets with
          | none => .error (.malformed (s.display path) (s.complaint octets))
          | some lists => .ok lists

/-- Derives the keys. -/
def run (r : KeyRequest Path) (s : Surroundings Path) : Logged (Except Failure Printout) :=
  match r.names s with
  | .error failure => pure (.error failure)
  | .ok lists => do
      match ← generate lists.items with
      | .error cause => return .error (.mnemonic cause)
      | .ok report =>
          Logged.emit (.printed report.length report.collisionCount)
          return .ok ⟨report.render r.format, !r.strict || report.isPerfect⟩

end KeyRequest

namespace MagicRequest

/-- Which magic values to try: from the known one on, unless told otherwise. -/
def settings (r : MagicRequest) : SearchSettings :=
  let settings := SearchSettings.preset.withStart (r.start.getD r.set.knownMagic)
  match r.limit with
  | none => settings
  | some limit => settings.withLimit limit

/-- A table as it was asked for. The slots are listed below the text and not in JSON. -/
def render (r : MagicRequest) (t : MagicTable) : String :=
  match r.format with
  | .text => t.text ++ if r.listing then t.slotListing r.set.labels else ""
  | .json => t.json.indented ++ "\n"

/-- Searches for the magic value. -/
def run (r : MagicRequest) : Logged (Except Failure Printout) := do
  match ← search r.set.scheme r.set.names r.settings with
  | .error cause => return .error (.search cause)
  | .ok table => return .ok ⟨r.render table, true⟩

end MagicRequest

/-- The name and version of the tool. -/
def versionText : String := "zone-keys 0.1.0\n"

/-- How the tool is used. -/
def usageText : String :=
  "Usage: zone-keys [--input <FILE>] [--format <text|json>] [--strict]\n"
    ++ "       zone-keys magic <algorithms|certificates|services> [--start <NUMBER>]\n"
    ++ "                 [--limit <NUMBER>] [--table] [--format <text|json>]\n"

/-- Texts with a line feed behind each. -/
def withLineFeeds (texts : List String) : String := String.join (texts.map (· ++ "\n"))

/-- The parts of a text between its line feeds. -/
def splitLines (text : String) : List String := splitText '\n' text

/-- What is left when the tool is done. -/
structure Outcome where
  /-- The exit status. -/
  status : Nat
  /-- What was written to the standard output. -/
  output : String
  /-- What was written to the standard error. -/
  diagnostics : String
  deriving DecidableEq

namespace Outcome

/-- The lines on the standard error. Nothing stands behind the last line feed. -/
def lines (o : Outcome) : List String := (splitLines o.diagnostics).dropLast

/-- The outcome of a computation, with as much of its log as is to be shown. -/
def ofLogged (filter : LogFilter) (result : Logged (Except Failure Printout)) : Outcome :=
  let log := filter.notices ++ filter.lines result.events
  match result.value with
  | .ok printout => ⟨if printout.success then 0 else 1, printout.text, withLineFeeds log⟩
  | .error failure => ⟨1, "", withLineFeeds (log ++ [s!"zone-keys: {failure.message}"])⟩

end Outcome

/-- Does what a command line says. The options for keys do not matter for a search. -/
def CommandLine.run (filter : LogFilter) (s : Surroundings Path) (line : CommandLine Path) :
    Outcome :=
  match line.magic with
  | none => .ofLogged filter (line.keys.run s)
  | some magic => .ofLogged filter magic.run

/-- Answers a request. -/
def Request.answer (filter : LogFilter) (s : Surroundings String) : Request → Outcome
  | run line => line.run filter s
  | help => ⟨0, usageText, withLineFeeds filter.notices⟩
  | version => ⟨0, versionText, withLineFeeds filter.notices⟩

end PerfectKeys
