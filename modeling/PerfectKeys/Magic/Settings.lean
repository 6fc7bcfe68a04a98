/-!
# Settings of a search

Which magic values are tried: how many, from which one on. Both numbers are kept within
bounds when they are set, and being at least one is part of the type, so there is always a
first value to try and zero is never among them. The values end at the largest word; the
search does not start over from zero.
-/

namespace PerfectKeys

/-- The value a setting has at first, and the range it is kept in. -/
structure Bounds (α : Type) where
  /-- The value when nothing is set. -/
  preset : α
  least : α
  greatest : α

/-- The value in range that is closest. Where the bounds cross, the least one wins. -/
def Bounds.clamp {α : Type} [Min α] [Max α] (b : Bounds α) (value : α) : α :=
  max b.least (min b.greatest value)

/-- The largest magic value. -/
def largestMagic : UInt64 := 0xFFFFFFFFFFFFFFFF

/-- Searches start at one: zero sends every name to the same slot, or to its length. -/
def startBounds : Bounds UInt64 := ⟨1, 1, largestMagic⟩

/-- Unless told otherwise, searches give up after 2³² values. -/
def limitBounds : Bounds UInt64 := ⟨0x100000000, 1, largestMagic⟩

theorem one_le_max_one (value : UInt64) : 1 ≤ max 1 value := by
  simp only [max]
  split
  · assumption
  · exact UInt64.le_refl 1

/-- Which magic values to try. -/
structure SearchSettings where
  /-- The first magic value. -/
  start : UInt64
  /-- How many values are tried at most. -/
  limit : UInt64
  /-- Zero is not tried. -/
  one_le_start : 1 ≤ start
  /-- At least one value is tried. -/
  one_le_limit : 1 ≤ limit
  deriving DecidableEq

namespace SearchSettings

/-- Nothing is set. -/
def preset : SearchSettings := ⟨startBounds.preset, limitBounds.preset, by decide, by decide⟩

/-- Starts at this value, or at the one closest to it in bounds. -/
def withStart (s : SearchSettings) (value : UInt64) : SearchSettings :=
  { s with start := startBounds.clamp value, one_le_start := one_le_max_one _ }

/-- Tries this many values, or the number closest to it in bounds. -/
def withLimit (s : SearchSettings) (value : UInt64) : SearchSettings :=
  { s with limit := limitBounds.clamp value, one_le_limit := one_le_max_one _ }

/-- The last magic value. -/
def last (s : SearchSettings) : UInt64 :=
  if s.limit - 1 ≤ largestMagic - s.start then s.start + (s.limit - 1) else largestMagic

/-- How many magic values there are from the first to the last. -/
def count (s : SearchSettings) : Nat := s.last.toNat - s.start.toNat + 1

/-- The last value in exact numbers: the sum stops at the largest word. -/
theorem toNat_last (s : SearchSettings) :
    s.last.toNat = min (s.start.toNat + s.limit.toNat - 1) (UInt64.size - 1) := by
  have h1 : 1 ≤ s.limit.toNat := UInt64.le_iff_toNat_le.mp s.one_le_limit
  have hl := s.limit.toNat_lt
  have hs := s.start.toNat_lt
  have hsub : (s.limit - 1).toNat = s.limit.toNat - 1 :=
    UInt64.toNat_sub_of_le _ _ s.one_le_limit
  have hmax : (largestMagic - s.start).toNat = largestMagic.toNat - s.start.toNat :=
    UInt64.toNat_sub_of_le _ _ (UInt64.le_iff_toNat_le.mpr (Nat.le_of_lt_succ hs))
  have hlargest : largestMagic.toNat = 18446744073709551615 := rfl
  have hsize : UInt64.size = 18446744073709551616 := rfl
  unfold last
  split
  · next h =>
    have h' := UInt64.le_iff_toNat_le.mp h
    rw [hsub, hmax] at h'
    rw [UInt64.toNat_add, hsub, Nat.mod_eq_of_lt (by omega)]
    omega
  · next h =>
    have h' := Nat.lt_of_not_le (fun e => h (UInt64.le_iff_toNat_le.mpr e))
    rw [hsub, hmax] at h'
    omega

end SearchSettings

end PerfectKeys
