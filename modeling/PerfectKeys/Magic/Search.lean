import PerfectKeys.FirstRepeat
import PerfectKeys.Log
import PerfectKeys.Magic.Settings
import PerfectKeys.Magic.Table

/-!
# Searching for a magic value

Magic values are tried in increasing order until one sends all names to distinct slots.

Before any value is tried, the names themselves are examined: each must be a mnemonic,
there must be a slot for each, and no two may count as the same. A list of names that
fails here cannot be told apart by any magic value.

Every value that is tried and fails leaves an event with the name that was the first to
find its slot taken; one more event tells how the search ended.
-/

namespace PerfectKeys

/-- Why there is no table. -/
inductive SearchError where
  /-- One of the names is no mnemonic. -/
  | mnemonic (cause : MnemonicError)
  /-- There are more names than slots. -/
  | tooManyNames (names slots : Nat)
  /-- The name at this position repeats an earlier one. -/
  | duplicateName (index : Nat)
  /-- No magic value in this range keeps the names apart. -/
  | exhausted (start last : UInt64)
  deriving DecidableEq

namespace SearchError

/-- The error in words. -/
def message : SearchError → String
  | mnemonic cause => cause.message
  | tooManyNames names slots => s!"{names} names do not fit into {slots} slots"
  | duplicateName index => s!"name at position {index} is a duplicate"
  | exhausted start last => s!"no magic value between {start.toNat} and {last.toNat}"

/-- The error behind the error. -/
def cause? : SearchError → Option MnemonicError
  | mnemonic cause => some cause
  | _ => none

end SearchError

/-- The names that texts spell, up to the first that is no mnemonic. -/
def readNames (texts : List (String × UInt16)) : Except MnemonicError (List CodedName) :=
  texts.mapM fun (text, code) => (Mnemonic.ofString text).map (⟨·, code⟩)

namespace Scheme

/-- The position of the first name that counts as the same as an earlier one. -/
def firstDuplicate? (s : Scheme) (names : List CodedName) : Option Nat :=
  (firstRepeat? (fun p => s.spelling p.1.name) names.zipIdx).map (·.2)

/-- The names to search for, if a search for them makes sense. -/
def examine (s : Scheme) (texts : List (String × UInt16)) :
    Except SearchError (List CodedName) := do
  let names ← (readNames texts).mapError .mnemonic
  if s.slots < names.length then
    throw (.tooManyNames names.length s.slots)
  if let some index := s.firstDuplicate? names then
    throw (.duplicateName index)
  return names

/-- The first name that finds its slot taken under a magic value. The digests are those of the
names. -/
def firstClash? (s : Scheme) (digests : List (Mnemonic × Digest)) (magic : UInt64) :
    Option Mnemonic :=
  (firstRepeat? (fun p => s.place magic p.2) digests).map (·.1)

end Scheme

/-- How trying magic values in order went. -/
structure Trial (α : Type) where
  /-- The values that failed, in order, with what was wrong about them. -/
  failed : List (UInt64 × α)
  /-- The first value with nothing wrong about it. -/
  found : Option UInt64

/-- Tries this many magic values in order. Those that failed before are given last first. -/
def tryFrom {α : Type} (fault? : UInt64 → Option α) (count : Nat) (magic : UInt64)
    (failed : List (UInt64 × α)) : Trial α :=
  match count with
  | 0 => ⟨failed.reverse, none⟩
  | count + 1 =>
      match fault? magic with
      | none => ⟨failed.reverse, some magic⟩
      | some fault => tryFrom fault? count (magic + 1) ((magic, fault) :: failed)

/-- Searches for the first magic value that sends the names to distinct slots. -/
def search (scheme : Scheme) (texts : List (String × UInt16)) (settings : SearchSettings) :
    Logged (Except SearchError MagicTable) :=
  match scheme.examine texts with
  | .error e => pure (.error e)
  | .ok names => do
      let digests := names.map fun n => (n.name, scheme.digest n.name)
      let trial := tryFrom (scheme.firstClash? digests) settings.count settings.start []
      Logged.emitAll (trial.failed.map fun (magic, name) => .clash magic name)
      match trial.found with
      | some magic =>
          Logged.emit (.found magic names.length)
          return .ok (.ofNames scheme magic names)
      | none =>
          Logged.emit (.exhausted settings.start settings.last)
          return .error (.exhausted settings.start settings.last)

end PerfectKeys
