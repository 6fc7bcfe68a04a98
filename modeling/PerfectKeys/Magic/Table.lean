import PerfectKeys.Magic.Scheme
import PerfectKeys.Json.Value

/-!
# Magic tables

What a successful search yields: the magic value, and the slot it gives each name. The
same table has two views. `entries` keeps the order in which the names were given; `cells`
is the array a program would index by slot.

Looking a name up goes through its hash, like a program would: the entry in the name's slot
is the only one that can match.
-/

namespace PerfectKeys

/-- A name with the number it stands for. -/
structure CodedName where
  name : Mnemonic
  code : UInt16
  deriving DecidableEq

/-- A name in a table. -/
structure MagicEntry where
  name : Mnemonic
  code : UInt16
  slot : Nat
  deriving DecidableEq

/-- What used and unused slots are called in a slot listing. -/
structure SlotLabels where
  used : String
  unused : String

/-- The labels unless told otherwise. -/
def SlotLabels.standard : SlotLabels := ⟨"ENTRY", "UNKNOWN"⟩

/-- Names hashed by a magic value. -/
structure MagicTable where
  /-- How the names are hashed. -/
  scheme : Scheme
  magic : UInt64
  /-- The names in the order they were given. -/
  entries : List MagicEntry
  deriving DecidableEq

namespace MagicTable

/-- The table of the names under a magic value. -/
def ofNames (scheme : Scheme) (magic : UInt64) (names : List CodedName) : MagicTable :=
  ⟨scheme, magic, names.map fun n => ⟨n.name, n.code, scheme.slot magic n.name⟩⟩

/-- The entries by their slots. -/
def cells (t : MagicTable) : List (Option MagicEntry) :=
  t.entries.foldl (fun cells e => cells.set e.slot (some e)) (List.replicate t.scheme.slots none)

/-- The entry of a name, if it is in the table. -/
def lookup (t : MagicTable) (text : String) : Option MagicEntry :=
  match Mnemonic.ofString text with
  | .error _ => none
  | .ok m =>
      let slot := t.scheme.slot t.magic m
      t.entries.find? (fun e => e.slot = slot ∧ t.scheme.Matches e.name m)

/-- The table with a line for each entry, below a line with the number of entries and the
magic value. -/
def text (t : MagicTable) : String :=
  s!"i: {t.entries.length}, magic: {t.magic.toNat}\n"
    ++ String.join (t.entries.map fun e => s!"{e.name}: {e.slot} ({e.code.toNat})\n")

/-- A cell's line in a slot listing. -/
def cellLine (labels : SlotLabels) : Option MagicEntry → String
  | some e => s!"  {labels.used}(\"{e.name}\", {e.code.toNat}),\n"
  | none => s!"  {labels.unused}(),\n"

/-- The table with a line for each slot. -/
def slotListing (t : MagicTable) (labels : SlotLabels) : String :=
  String.join (t.cells.map (cellLine labels))

/-- The table as a JSON object. -/
def json (t : MagicTable) : Json :=
  .obj [("magic", .num t.magic.toNat),
    ("entries", .arr (t.entries.map fun e =>
      .obj [("name", .str e.name.text), ("code", .num e.code.toNat), ("slot", .num e.slot)]))]

end MagicTable

end PerfectKeys
