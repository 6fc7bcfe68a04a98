import PerfectKeys.Key
import PerfectKeys.Json.Value

/-!
# Reports

The outcome of a run of key derivation: an entry for each mnemonic, in the order the
mnemonics were handled, with its key and whether an earlier mnemonic had taken that key.
A collision is a result and no error; the entries that are no collisions are the ones that
can go into a table.

A report is written in two ways. The text has a line for each entry, the JSON form an
object for each entry.
-/

namespace PerfectKeys

/-- What a mnemonic names. -/
inductive Role where
  | zoneClass
  | recordType
  deriving DecidableEq

/-- The role in words. -/
def Role.text : Role → String
  | .zoneClass => "class"
  | .recordType => "type"

instance : ToString Role := ⟨Role.text⟩

/-- What came of one mnemonic. -/
structure Entry where
  /-- What the mnemonic names. -/
  role : Role
  mnemonic : Mnemonic
  key : Key
  /-- Whether an earlier mnemonic had the key already. -/
  collision : Bool
  deriving DecidableEq

namespace Entry

/-- The entry's line in a report, without the line feed. -/
def line (e : Entry) : String :=
  s!"{e.role}: {e.mnemonic}, {e.key.text}" ++ if e.collision then " (collision)" else ""

/-- The entry as a JSON object. -/
def json (e : Entry) : Json :=
  .obj [("role", .str e.role.text), ("mnemonic", .str e.mnemonic.text),
    ("bucket", .num e.key.bucket.val), ("hash", .num e.key.slot.toNat),
    ("collided", .bool e.collision)]

end Entry

/-- The entries of a run, in order. -/
structure Report where
  entries : List Entry
  deriving DecidableEq

namespace Report

/-- How many entries there are. -/
def length (r : Report) : Nat := r.entries.length

/-- The entries whose key had been taken. -/
def collisions (r : Report) : List Entry := r.entries.filter (·.collision)

/-- The entries that were first to their key. -/
def accepted (r : Report) : List Entry := r.entries.filter (!·.collision)

/-- How many entries found their key taken. -/
def collisionCount (r : Report) : Nat := r.collisions.length

/-- Whether the keys form a perfect hash. -/
def isPerfect (r : Report) : Bool := r.collisions.isEmpty

/-- The report with a line for each entry. -/
def text (r : Report) : String := String.join (r.entries.map (·.line ++ "\n"))

/-- The report as a JSON list. -/
def json (r : Report) : Json := .arr (r.entries.map Entry.json)

end Report

end PerfectKeys
