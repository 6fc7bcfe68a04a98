import PerfectKeys.Key

/-!
# Which cells are taken

One bit for each of the 32 × 256 cells, a 256-bit row to a bucket, and the number of bits
that are set. A cell is taken once and never given up; taking it again is how a collision
shows. Seen through membership, no cell of `empty` is taken, and `insert` takes the one cell
it is given and leaves all others alone.
-/

namespace PerfectKeys

/-- The set of cells taken so far. -/
structure Occupancy where
  /-- A row for each bucket, with bit `i` set when slot `i` is taken. -/
  rows : Vector (BitVec 256) 32
  /-- How many cells are taken. -/
  size : Nat
  deriving DecidableEq

namespace Occupancy

/-- No cell is taken. -/
def empty : Occupancy := ⟨Vector.replicate 32 0#256, 0⟩

/-- Whether the cell is taken. -/
def contains (o : Occupancy) (k : Key) : Bool := o.rows[k.bucket].getLsbD k.slot.toNat

instance : Membership Key Occupancy := ⟨fun o k => o.contains k = true⟩

instance (k : Key) (o : Occupancy) : Decidable (k ∈ o) :=
  inferInstanceAs (Decidable (o.contains k = true))

/-- Takes the cell, and tells whether it was free. -/
def insert (o : Occupancy) (k : Key) : Bool × Occupancy :=
  if k ∈ o then (false, o)
  else
    (true,
      { rows := o.rows.set k.bucket (o.rows[k.bucket] ||| 1#256 <<< k.slot.toNat)
        size := o.size + 1 })

/-- Whether no cell is taken. -/
def isEmpty (o : Occupancy) : Bool := o.size == 0

/-! ## Which cells the operations take -/

theorem mem_iff_getLsbD {k : Key} {o : Occupancy} :
    k ∈ o ↔ o.rows[k.bucket].getLsbD k.slot.toNat = true := Iff.rfl

theorem not_mem_empty (k : Key) : k ∉ empty := by
  rw [mem_iff_getLsbD]
  simp [empty]

/-- A cell was free when it was not taken before. -/
theorem fst_insert (o : Occupancy) (k : Key) : (o.insert k).1 = decide (k ∉ o) := by
  unfold insert
  by_cases h : k ∈ o
  · rw [if_pos h]; simp [h]
  · rw [if_neg h]; simp [h]

/-- A single bit, shifted into place. -/
theorem getLsbD_one_shiftLeft (i j : UInt8) :
    (1#256 <<< i.toNat).getLsbD j.toNat = decide (j = i) := by
  have hj : j.toNat < 256 := UInt8.toNat_lt j
  rw [BitVec.getLsbD_shiftLeft]
  by_cases h : j = i
  · subst h; simp [hj]
  · have hne : j.toNat ≠ i.toNat := fun e => h (UInt8.toNat_inj.mp e)
    simp [h, hj]
    omega

/-- A cell is taken after taking `k` if it is `k` or was taken before. -/
theorem mem_insert_iff {o : Occupancy} {k k' : Key} : k' ∈ (o.insert k).2 ↔ k' = k ∨ k' ∈ o := by
  unfold insert
  by_cases h : k ∈ o
  · rw [if_pos h]
    refine ⟨Or.inr, ?_⟩
    rintro (rfl | h')
    · exact h
    · exact h'
  · rw [if_neg h]
    obtain ⟨b', s'⟩ := k'
    obtain ⟨b, s⟩ := k
    simp only [mem_iff_getLsbD, Key.mk.injEq]
    by_cases hb : b' = b
    · subst hb
      rw [Fin.getElem_fin, Vector.getElem_set_self, BitVec.getLsbD_or, getLsbD_one_shiftLeft]
      simp [or_comm]
    · have hne : b.val ≠ b'.val := fun e => hb (Fin.ext e.symm)
      rw [Fin.getElem_fin, Vector.getElem_set_ne _ _ hne]
      simp [hb]

end Occupancy

end PerfectKeys
