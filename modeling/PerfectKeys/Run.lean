import PerfectKeys.Log
import PerfectKeys.NameLists
import PerfectKeys.Occupancy

/-!
# Runs of key derivation

A run handles mnemonics one after the other and keeps the cells they have taken. The first
mnemonic with a key takes the cell; every later one is entered as a collision, whatever
its role. So the keys of a run do not depend on the order of its mnemonics, while the
flags do.

A text that is no mnemonic is refused before anything happens. The error then stands beside
the run, which goes on from where it is.
-/

namespace PerfectKeys

/-- A run in progress. -/
structure Run where
  /-- The cells taken so far. -/
  occupied : Occupancy
  /-- The entries so far, in order. -/
  entries : List Entry
  deriving DecidableEq

namespace Run

/-- Nothing has been handled yet. -/
def start : Run := ⟨.empty, []⟩

/-- Handles a mnemonic: its entry, and the run after it. -/
def add (run : Run) (role : Role) (m : Mnemonic) : Logged (Entry × Run) := do
  let key := Key.of m
  let (free, occupied) := run.occupied.insert key
  let entry : Entry := ⟨role, m, key, !free⟩
  Logged.emit (.keyed entry)
  return (entry, ⟨occupied, run.entries ++ [entry]⟩)

/-- Handles the mnemonic that a text spells: the run after that, and its entry or what is wrong
with the text. -/
def push (run : Run) (role : Role) (text : String) :
    Logged (Run × Except MnemonicError Entry) :=
  match Mnemonic.ofString text with
  | .error e => pure (run, .error e)
  | .ok m => do
      let (entry, run) ← run.add role m
      return (run, .ok entry)

/-- Handles texts up to the first that is no mnemonic: the run after that, and what was wrong. -/
def extend (run : Run) (items : List (Role × String)) :
    Logged (Run × Except MnemonicError Unit) :=
  match items with
  | [] => pure (run, .ok ())
  | (role, text) :: rest => do
      let (run, outcome) ← run.push role text
      match outcome with
      | .error e => return (run, .error e)
      | .ok _ => run.extend rest

/-- Ends the run. -/
def finish (run : Run) : Logged Report := do
  let report : Report := ⟨run.entries⟩
  Logged.emit (.generated report.length report.collisionCount)
  return report

end Run

/-- The report of a run over all the items, if every text is a mnemonic. -/
def generate (items : List (Role × String)) : Logged (Except MnemonicError Report) := do
  let (run, outcome) ← Run.start.extend items
  match outcome with
  | .error e => return .error e
  | .ok () =>
      let report ← run.finish
      return .ok report

end PerfectKeys
