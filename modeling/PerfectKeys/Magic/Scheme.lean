import PerfectKeys.Mnemonic

/-!
# Hashing by a magic multiplier

A small, fixed set of names needs one level only. The first eight octets of a name are
read as a number, its two halves are folded into one, and that is multiplied by a *magic
value*; the upper half of the product, reduced to the size of the table, is the slot.
Whether a set of names gets distinct slots depends on the magic value alone.

A `Scheme` fixes the rest: how many slots there are, whether case is ignored, and whether
the length is added. Without the length, names that agree in their first eight octets
always share a slot.

All that a name contributes is its `Digest`, so trying one magic value after the other
reads each name once.
-/

namespace PerfectKeys

/-- A way to hash names into a table. -/
structure Scheme where
  /-- How many bits a slot has. -/
  width : Fin 9
  /-- Whether the case of letters is ignored. -/
  foldsCase : Bool
  /-- Whether the length of the name is added. -/
  addsLength : Bool
  deriving DecidableEq

/-- What a scheme reads off a name. -/
structure Digest where
  /-- The two halves of the leading octets, folded into one. -/
  folded : UInt32
  /-- What is added to the product. -/
  addend : Nat
  deriving DecidableEq

/-- The first eight octets as a number, least significant first. Missing ones count as zero. -/
def leading (octets : List Octet) : UInt64 :=
  (octets.take 8).foldr (fun o value => (value <<< 8) ||| o.toUInt64) 0

namespace Scheme

/-- The scheme with this many slots and nothing else, if that is a power of two up to 256. -/
def ofSlots? (slots : Nat) : Option Scheme :=
  ((List.finRange 9).find? (fun width => Nat.pow 2 width.val = slots)).map (⟨·, false, false⟩)

/-- The scheme, ignoring case. -/
def withCaseFolding (s : Scheme) : Scheme := { s with foldsCase := true }

/-- The scheme, adding the length. -/
def withLength (s : Scheme) : Scheme := { s with addsLength := true }

/-- How many slots there are. -/
def slots (s : Scheme) : Nat := Nat.pow 2 s.width.val

theorem slots_pos (s : Scheme) : 0 < s.slots := Nat.two_pow_pos _

/-- The leading octets of a name, without their case bits when case is ignored. -/
def word (s : Scheme) (m : Mnemonic) : UInt64 :=
  if s.foldsCase then leading m.octets &&& 0xDFDFDFDFDFDFDFDF else leading m.octets

/-- What the scheme reads off a name. -/
def digest (s : Scheme) (m : Mnemonic) : Digest where
  folded := ((s.word m >>> 32) ^^^ s.word m).toUInt32
  addend := if s.addsLength then m.length else 0

/-- The slot of a name with this digest. -/
def place (s : Scheme) (magic : UInt64) (d : Digest) : Nat :=
  (((d.folded.toUInt64 * magic) >>> 32).toNat + d.addend) % s.slots

/-- The slot of a name. -/
def slot (s : Scheme) (magic : UInt64) (m : Mnemonic) : Nat := s.place magic (s.digest m)

/-- A slot lies in the table. -/
theorem slot_lt (s : Scheme) (magic : UInt64) (m : Mnemonic) : s.slot magic m < s.slots :=
  Nat.mod_lt _ s.slots_pos

/-- What two names have in common when they count as the same. -/
def spelling (s : Scheme) (m : Mnemonic) : List Octet :=
  if s.foldsCase then m.octets.map Octet.lower else m.octets

/-- Whether two names count as the same: letter by letter, or up to case. -/
def Matches (s : Scheme) (a b : Mnemonic) : Prop := s.spelling a = s.spelling b

instance (s : Scheme) (a b : Mnemonic) : Decidable (s.Matches a b) :=
  inferInstanceAs (Decidable (s.spelling a = s.spelling b))

end Scheme

end PerfectKeys
