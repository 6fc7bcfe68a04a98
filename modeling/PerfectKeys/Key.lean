import PerfectKeys.Mnemonic

/-!
# Two-level keys

A key addresses one of 32 × 256 cells. Its bucket is read off the first octet of a
mnemonic, its slot off the last octet and the length, so it can be computed without
looking at anything in between. Both ends are read with the case bit cleared: a key
ignores the case of letters, and of digits and signs it sees even less.
-/

namespace PerfectKeys

/-- A cell of the two-level table. -/
structure Key where
  /-- Which of the 32 buckets. -/
  bucket : Fin 32
  /-- Which of the bucket's 256 slots. -/
  slot : UInt8
  deriving DecidableEq

namespace Key

/-- How far the first octet lies above `'A'`, within five bits. -/
def bucketOf (m : Mnemonic) : Fin 32 := Fin.ofNat 32 (m.first.clearCaseBit - 0x41).toNat

/-- Seven times the last octet plus the length, within eight bits. -/
def slotOf (m : Mnemonic) : UInt8 := 7 * m.last.clearCaseBit + UInt8.ofNat m.length

/-- The key of a mnemonic. -/
def of (m : Mnemonic) : Key := ⟨bucketOf m, slotOf m⟩

/-- The key with the given bucket and slot, if there is such a bucket. -/
def ofParts? (bucket slot : UInt8) : Option Key :=
  if h : bucket.toNat < 32 then some ⟨⟨bucket.toNat, h⟩, slot⟩ else none

/-- The bucket's number and the slot's number determine the key. -/
theorem eq_of_parts {k k' : Key} (hbucket : k.bucket.val = k'.bucket.val)
    (hslot : k.slot.toNat = k'.slot.toNat) : k = k' := by
  have hb : k.bucket = k'.bucket := Fin.ext hbucket
  have hs : k.slot = k'.slot := UInt8.toNat_inj.mp hslot
  cases k
  cases k'
  cases hb
  cases hs
  rfl

/-- Keys are ordered by bucket, and within a bucket by slot. -/
instance : LE Key :=
  ⟨fun a b => a.bucket < b.bucket ∨ a.bucket = b.bucket ∧ a.slot ≤ b.slot⟩

instance : DecidableLE Key := fun a b =>
  inferInstanceAs (Decidable (a.bucket < b.bucket ∨ a.bucket = b.bucket ∧ a.slot ≤ b.slot))

/-- The key as reports show it. -/
def text (k : Key) : String := s!"key: {k.bucket.val}, hash: {k.slot.toNat}"

end Key

end PerfectKeys
