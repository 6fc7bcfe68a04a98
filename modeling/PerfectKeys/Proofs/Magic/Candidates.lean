import Mathlib.Order.Bounds.Basic
import PerfectKeys.Magic.Search

/-!
# The magic values a search tries

Trying values one after the other is looking for the first good one in a list: the
candidates. That list is strictly increasing and holds exactly the values between the
ends of the range, in exact numbers, so the first good candidate is the least good
value of the range. The range may end at the largest word; the list then ends there
too and nothing in it has wrapped around.
-/

namespace PerfectKeys

/-- This many magic values in order, from this one on. -/
def magicsFrom (magic : UInt64) (count : Nat) : List UInt64 :=
  (List.range count).map fun k => magic + UInt64.ofNat k

theorem magicsFrom_succ (magic : UInt64) (count : Nat) :
    magicsFrom magic (count + 1) = magic :: magicsFrom (magic + 1) count := by
  unfold magicsFrom
  rw [List.range_succ_eq_map, List.map_cons, List.map_map]
  refine congr (congrArg _ (UInt64.add_zero magic)) (List.map_congr_left fun k _ => ?_)
  show magic + UInt64.ofNat (k + 1) = magic + 1 + UInt64.ofNat k
  rw [UInt64.ofNat_add, UInt64.add_assoc, UInt64.add_comm (UInt64.ofNat k)]
  rfl

/-- Values in order come in two parts, the second of which goes on behind the first. -/
theorem magicsFrom_add (magic : UInt64) (first rest : Nat) :
    magicsFrom magic (first + rest)
      = magicsFrom magic first ++ magicsFrom (magic + UInt64.ofNat first) rest := by
  unfold magicsFrom
  rw [List.range_add, List.map_append, List.map_map]
  refine congrArg (_ ++ ·) (List.map_congr_left fun k _ => ?_)
  show magic + UInt64.ofNat (first + k) = magic + UInt64.ofNat first + UInt64.ofNat k
  rw [UInt64.ofNat_add, UInt64.add_assoc]

/-- Trying values in order finds the first one in their list that has no fault. -/
theorem found_tryFrom {α : Type} (fault? : UInt64 → Option α) (count : Nat) (magic : UInt64)
    (failed : List (UInt64 × α)) :
    (tryFrom fault? count magic failed).found
      = (magicsFrom magic count).find? fun m => (fault? m).isNone := by
  induction count generalizing magic failed with
  | zero => rfl
  | succ count ih =>
      rw [tryFrom, magicsFrom_succ, List.find?_cons]
      cases fault? magic with
      | none => rfl
      | some fault => exact ih (magic + 1) _

theorem toNat_add_ofNat {magic : UInt64} {count k : Nat} (h : magic.toNat + count ≤ UInt64.size)
    (hk : k < count) : (magic + UInt64.ofNat k).toNat = magic.toNat + k := by
  have hsize : UInt64.size = 18446744073709551616 := rfl
  rw [UInt64.toNat_add, UInt64.toNat_ofNat_of_lt' (by omega)]
  exact Nat.mod_eq_of_lt (by omega)

theorem mem_magicsFrom_iff {magic m : UInt64} {count : Nat}
    (h : magic.toNat + count ≤ UInt64.size) :
    m ∈ magicsFrom magic count ↔ magic.toNat ≤ m.toNat ∧ m.toNat < magic.toNat + count := by
  unfold magicsFrom
  rw [List.mem_map]
  refine ⟨fun hm => ?_, fun hm => ?_⟩
  · obtain ⟨k, hk, rfl⟩ := hm
    have hk := List.mem_range.mp hk
    rw [toNat_add_ofNat h hk]
    omega
  · obtain ⟨h1, h2⟩ := hm
    refine ⟨m.toNat - magic.toNat, List.mem_range.mpr (by omega), UInt64.toNat_inj.mp ?_⟩
    rw [toNat_add_ofNat h (by omega)]
    omega

theorem pairwise_magicsFrom {magic : UInt64} {count : Nat}
    (h : magic.toNat + count ≤ UInt64.size) :
    (magicsFrom magic count).Pairwise (fun a b => a.toNat < b.toNat) := by
  unfold magicsFrom
  rw [List.pairwise_map, List.pairwise_iff_getElem]
  intro i j hi hj hij
  rw [List.length_range] at hi hj
  rw [List.getElem_range, List.getElem_range, toNat_add_ofNat h hi, toNat_add_ofNat h hj]
  omega

/-- There is one least value at most. -/
theorem eq_of_isLeast {values : Set UInt64} {a b : UInt64} (ha : IsLeast values a)
    (hb : IsLeast values b) : a = b :=
  UInt64.le_antisymm (ha.2 hb.1) (hb.2 ha.1)

namespace SearchSettings

/-- Values are raised to one, and otherwise kept. -/
theorem toNat_clamp (preset value : UInt64) :
    (Bounds.clamp ⟨preset, 1, largestMagic⟩ value).toNat = max 1 value.toNat := by
  have hle : value.toNat ≤ 18446744073709551615 := Nat.le_of_lt_succ value.toNat_lt
  unfold Bounds.clamp
  rw [UInt64.toNat_max, UInt64.toNat_min]
  show max 1 (min 18446744073709551615 value.toNat) = max 1 value.toNat
  rw [Nat.min_eq_right hle]

/-- The magic values to try, in order. -/
def candidates (s : SearchSettings) : List UInt64 := magicsFrom s.start s.count

/-- The value lies between the first and the last one, in exact numbers. -/
def Allows (s : SearchSettings) (magic : UInt64) : Prop :=
  s.start.toNat ≤ magic.toNat ∧
    magic.toNat ≤ min (s.start.toNat + s.limit.toNat - 1) (UInt64.size - 1)

theorem one_le_toNat_limit (s : SearchSettings) : 1 ≤ s.limit.toNat :=
  UInt64.le_iff_toNat_le.mp s.one_le_limit

theorem start_le_last (s : SearchSettings) : s.start.toNat ≤ s.last.toNat := by
  have hl := s.one_le_toNat_limit
  have hs : s.start.toNat < 18446744073709551616 := s.start.toNat_lt
  have hsize : UInt64.size = 18446744073709551616 := rfl
  rw [toNat_last]
  omega

/-- The candidates fill the range up to its last value. -/
theorem start_add_count (s : SearchSettings) : s.start.toNat + s.count = s.last.toNat + 1 := by
  have := s.start_le_last
  unfold count
  omega

theorem start_add_count_le (s : SearchSettings) : s.start.toNat + s.count ≤ UInt64.size := by
  rw [start_add_count]
  exact s.last.toNat_lt

/-- How many values there are in exact numbers. -/
theorem count_eq (s : SearchSettings) :
    s.count = min s.limit.toNat (UInt64.size - s.start.toNat) := by
  have hcount := s.start_add_count
  have hlast := s.toNat_last
  have hone := s.one_le_toNat_limit
  have hlt : s.start.toNat < UInt64.size := s.start.toNat_lt
  omega

theorem mem_candidates_iff {s : SearchSettings} {magic : UInt64} :
    magic ∈ s.candidates ↔ s.Allows magic := by
  unfold candidates Allows
  rw [mem_magicsFrom_iff s.start_add_count_le, start_add_count, ← toNat_last, Nat.lt_succ_iff]

/-- **The first good candidate is the least good value in range.** -/
theorem find?_candidates_eq_some_iff {s : SearchSettings} {p : UInt64 → Bool} {magic : UInt64} :
    s.candidates.find? p = some magic ↔ IsLeast {m | s.Allows m ∧ p m = true} magic := by
  have hsorted : s.candidates.Pairwise (fun a b => a.toNat < b.toNat) :=
    pairwise_magicsFrom s.start_add_count_le
  have least {m : UInt64} (h : s.candidates.find? p = some m) :
      IsLeast {m | s.Allows m ∧ p m = true} m := by
    refine ⟨⟨mem_candidates_iff.mp (List.mem_of_find?_eq_some h), List.find?_some h⟩, ?_⟩
    intro m' hgood
    obtain ⟨hm', hp⟩ := hgood
    obtain ⟨-, before, after, heq, hbefore⟩ := List.find?_eq_some_iff_append.mp h
    rw [← mem_candidates_iff, heq] at hm'
    rw [heq, List.pairwise_append, List.pairwise_cons] at hsorted
    rw [UInt64.le_iff_toNat_le]
    rcases List.mem_append.mp hm' with hm' | hm'
    · -- what stands before the first good candidate is not good
      have := hbefore m' hm'
      rw [hp] at this
      cases this
    · rcases List.mem_cons.mp hm' with rfl | hm'
      · exact Nat.le_refl _
      · exact Nat.le_of_lt (hsorted.2.1.1 m' hm')
  refine ⟨least, fun h => ?_⟩
  cases hfind : s.candidates.find? p with
  | none =>
      have := List.find?_eq_none.mp hfind magic (mem_candidates_iff.mpr h.1.1)
      exact absurd h.1.2 this
  | some m =>
      exact congrArg some (eq_of_isLeast (least hfind) h)

end SearchSettings

end PerfectKeys
