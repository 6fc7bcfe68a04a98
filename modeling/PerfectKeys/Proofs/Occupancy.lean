import Mathlib.Data.Finset.Card
import PerfectKeys.Occupancy

/-!
# The cells taken are a set

However many keys are taken one after the other, and however often each of them, what is
left is the set of these keys: membership is that of the list, the counter is the number of
distinct keys, and tables that hold the same keys are equal bit by bit. So neither the order
nor the repetitions of a run can be read off its table.

A row of 256 bits is four words of 64 bits, with the lowest slots in the first word. Seen
that way, taking a cell sets one bit of one word and leaves all other words alone.
-/

namespace PerfectKeys

theorem size_insert (o : Occupancy) (k : Key) :
    (o.insert k).2.size = if k ∈ o then o.size else o.size + 1 := by
  unfold Occupancy.insert
  split
  · rfl
  · rfl

namespace Key

/-- Which of the four words of its bucket the cell lies in. -/
def wordIndex (k : Key) : Fin 4 := ⟨k.slot.toNat / 64, by have := k.slot.toNat_lt; omega⟩

/-- Which bit of that word is the cell's. -/
def bitIndex (k : Key) : Nat := k.slot.toNat % 64

/-- The cell at a bit of a word. -/
def atBit (bucket : Fin 32) (word : Fin 4) (bit : Nat) : Key :=
  ⟨bucket, UInt8.ofNat (64 * word.val + bit)⟩

theorem slot_atBit {bucket : Fin 32} {word : Fin 4} {bit : Nat} (hbit : bit < 64) :
    (atBit bucket word bit).slot.toNat = 64 * word.val + bit :=
  UInt8.toNat_ofNat_of_lt' (by have := word.isLt; show _ < 256; omega)

theorem atBit_eq_iff {bucket : Fin 32} {word : Fin 4} {bit : Nat} {k : Key} (hbit : bit < 64) :
    atBit bucket word bit = k ↔ bucket = k.bucket ∧ word = k.wordIndex ∧ bit = k.bitIndex := by
  have hslot : (atBit bucket word bit).slot.toNat = 64 * word.val + bit := slot_atBit hbit
  unfold wordIndex bitIndex
  constructor
  · intro h
    rw [h] at hslot
    refine ⟨congrArg Key.bucket h, Fin.ext ?_, ?_⟩
    · show word.val = k.slot.toNat / 64
      omega
    · omega
  · intro ⟨hbucket, hword, hbit'⟩
    have hword : word.val = k.slot.toNat / 64 := congrArg Fin.val hword
    refine eq_of_parts (congrArg Fin.val hbucket) ?_
    omega

theorem bitIndex_lt (k : Key) : k.bitIndex < 64 := Nat.mod_lt _ (by decide)

theorem atBit_self (k : Key) : atBit k.bucket k.wordIndex k.bitIndex = k :=
  (atBit_eq_iff k.bitIndex_lt).mpr ⟨rfl, rfl, rfl⟩

/-- There are 32 × 256 cells. -/
theorem card_le (s : Finset Key) : s.card ≤ 8192 := by
  have hrange : ∀ k ∈ s, k.bucket.val * 256 + k.slot.toNat ∈ Finset.range 8192 := by
    intro k _
    have := k.bucket.isLt
    have := k.slot.toNat_lt
    rw [Finset.mem_range]
    omega
  have hinj : Set.InjOn (fun k : Key => k.bucket.val * 256 + k.slot.toNat) s := by
    intro a _ b _ hab
    have hab : a.bucket.val * 256 + a.slot.toNat = b.bucket.val * 256 + b.slot.toNat := hab
    have ha := a.slot.toNat_lt
    have hb := b.slot.toNat_lt
    exact eq_of_parts (by omega) (by omega)
  have := Finset.card_le_card_of_injOn _ hrange hinj
  rwa [Finset.card_range] at this

end Key

namespace Occupancy

/-! ## The words of a row -/

/-- The bits of 64 consecutive slots of a bucket. -/
def word (o : Occupancy) (bucket : Fin 32) (i : Fin 4) : BitVec 64 :=
  o.rows[bucket].extractLsb' (64 * i.val) 64

theorem getLsbD_word {o : Occupancy} {bucket : Fin 32} {i : Fin 4} {j : Nat} (hj : j < 64) :
    (o.word bucket i).getLsbD j = true ↔ Key.atBit bucket i j ∈ o := by
  rw [mem_iff_getLsbD, Key.slot_atBit hj, word, BitVec.getLsbD_extractLsb', decide_eq_true hj,
    Bool.true_and]
  rfl

theorem contains_eq_getLsbD_word (o : Occupancy) (k : Key) :
    o.contains k = (o.word k.bucket k.wordIndex).getLsbD k.bitIndex := by
  rw [Bool.eq_iff_iff, getLsbD_word k.bitIndex_lt, Key.atBit_self]
  rfl

/-- **Taking a cell sets one bit of one word.** -/
theorem word_insert (o : Occupancy) (k : Key) (bucket : Fin 32) (i : Fin 4) :
    (o.insert k).2.word bucket i =
      if bucket = k.bucket ∧ i = k.wordIndex then o.word bucket i ||| 1#64 <<< k.bitIndex
      else o.word bucket i := by
  refine BitVec.eq_of_getLsbD_eq fun j hj => ?_
  rw [Bool.eq_iff_iff, getLsbD_word hj, mem_insert_iff, Key.atBit_eq_iff hj, ← getLsbD_word hj]
  -- only in the word of the key can the bit `j` be the key's
  split
  · next h =>
    have hone : (1#64 <<< k.bitIndex).getLsbD j = true ↔ j = k.bitIndex := by
      rw [BitVec.getLsbD_shiftLeft]
      have := k.bitIndex_lt
      simp [hj]
      omega
    rw [BitVec.getLsbD_or, Bool.or_eq_true, hone, or_comm]
    simp only [h.1, h.2, true_and]
  · next h =>
    constructor
    · rintro (hcell | hold)
      · exact absurd ⟨hcell.1, hcell.2.1⟩ h
      · exact hold
    · exact Or.inr

/-! ## Tables with the same cells -/

theorem ext_of_mem_iff {o o' : Occupancy} (hmem : ∀ k, k ∈ o ↔ k ∈ o') (hsize : o.size = o'.size) :
    o = o' := by
  have hrows : o.rows = o'.rows := by
    refine Vector.ext fun b hb => BitVec.eq_of_getLsbD_eq fun i hi => ?_
    have hcell := hmem ⟨⟨b, hb⟩, UInt8.ofNat i⟩
    rw [mem_iff_getLsbD, mem_iff_getLsbD, UInt8.toNat_ofNat_of_lt' hi] at hcell
    exact Bool.eq_iff_iff.mpr hcell
  cases o
  cases o'
  cases hrows
  cases hsize
  rfl

theorem eq_iff_word_eq {o o' : Occupancy} :
    o = o' ↔ (∀ bucket i, o.word bucket i = o'.word bucket i) ∧ o.size = o'.size := by
  constructor
  · intro h
    rw [h]
    exact ⟨fun _ _ => rfl, rfl⟩
  · intro ⟨hwords, hsize⟩
    refine ext_of_mem_iff (fun k => ?_) hsize
    have hk := contains_eq_getLsbD_word o k
    rw [hwords, ← contains_eq_getLsbD_word] at hk
    exact Bool.eq_iff_iff.mp hk

/-! ## Taking cells one after the other -/

/-- The cells taken after these keys, in order. -/
def insertAll (o : Occupancy) (keys : List Key) : Occupancy :=
  keys.foldl (fun o k => (o.insert k).2) o

/-- The table holds these keys, each of them once. -/
structure Holds (o : Occupancy) (keys : List Key) : Prop where
  mem_iff : ∀ k, k ∈ o ↔ k ∈ keys
  /-- Keys that come again are not counted again. -/
  size_eq : o.size = keys.toFinset.card

theorem holds_empty : empty.Holds [] where
  mem_iff := by
    intro k
    exact iff_of_false (not_mem_empty k) List.not_mem_nil
  size_eq := rfl

theorem holds_insert {o : Occupancy} {keys : List Key} (h : o.Holds keys) (k : Key) :
    (o.insert k).2.Holds (keys ++ [k]) where
  mem_iff := by
    intro k'
    rw [mem_insert_iff, h.mem_iff, List.mem_append, List.mem_singleton, or_comm]
  size_eq := by
    have hset : (keys ++ [k]).toFinset = Insert.insert k keys.toFinset := by
      ext k'
      simp
    rw [size_insert, hset, h.size_eq]
    -- a key that comes again is counted neither by the table nor by the set
    by_cases hk : k ∈ keys
    · rw [if_pos ((h.mem_iff k).mpr hk), Finset.insert_eq_of_mem (List.mem_toFinset.mpr hk)]
    · rw [if_neg (fun hmem => hk ((h.mem_iff k).mp hmem)),
        Finset.card_insert_of_notMem (fun hmem => hk (List.mem_toFinset.mp hmem))]

theorem holds_insertAll {o : Occupancy} {before : List Key} (h : o.Holds before)
    (keys : List Key) : (o.insertAll keys).Holds (before ++ keys) := by
  induction keys generalizing o before with
  | nil =>
      rw [List.append_nil]
      exact h
  | cons k keys ih =>
      have hstep := ih (holds_insert h k)
      rw [List.append_assoc] at hstep
      exact hstep

/--
**The table is the set of the keys taken.**

After any keys: a cell is taken when its key is among them, the next key is answered by
whether it is new and changes nothing about the others, the counter is the number of distinct
keys, and tables are equal when their keys are the same. Word by word, a cell is one bit, and
taking it sets that bit only.
-/
theorem insertAll_holds_set (keys : List Key) :
    let o := empty.insertAll keys
    (∀ k, o.contains k = true ↔ k ∈ keys) ∧
    (∀ k, (o.insert k).1 = true ↔ k ∉ keys) ∧
    (∀ k k', k' ≠ k → (o.insert k).2.contains k' = o.contains k') ∧
    (o.size = keys.toFinset.card ∧ o.size ≤ 8192) ∧
    (o.isEmpty = true ↔ keys = []) ∧
    (∀ keys', o = empty.insertAll keys' ↔ keys.toFinset = keys'.toFinset) ∧
    (∀ o', o = o' ↔ (∀ bucket i, o.word bucket i = o'.word bucket i) ∧ o.size = o'.size) ∧
    (∀ k, o.contains k = (o.word k.bucket k.wordIndex).getLsbD k.bitIndex ∧
      ∀ bucket i, (o.insert k).2.word bucket i =
        if bucket = k.bucket ∧ i = k.wordIndex then o.word bucket i ||| 1#64 <<< k.bitIndex
        else o.word bucket i) := by
  intro o
  have h : o.Holds keys := holds_insertAll holds_empty keys
  refine ⟨h.mem_iff, ?_, ?_, ⟨h.size_eq, ?_⟩, ?_, ?_, fun o' => eq_iff_word_eq,
    fun k => ⟨contains_eq_getLsbD_word o k, word_insert o k⟩⟩
  · intro k
    rw [fst_insert, decide_eq_true_iff, h.mem_iff]
  · intro k k' hne
    have hmem : k' ∈ (o.insert k).2 ↔ k' ∈ o := by
      rw [mem_insert_iff, or_iff_right hne]
    exact Bool.eq_iff_iff.mpr hmem
  · rw [h.size_eq]
    exact Key.card_le _
  · unfold isEmpty
    rw [beq_iff_eq, h.size_eq, Finset.card_eq_zero, List.toFinset_eq_empty_iff]
  · intro keys'
    have h' : (empty.insertAll keys').Holds keys' := holds_insertAll holds_empty keys'
    constructor
    · intro heq
      ext k
      rw [List.mem_toFinset, List.mem_toFinset, ← h.mem_iff, ← h'.mem_iff, heq]
    · intro hset
      -- cells and counter of either table are determined by the set of its keys
      refine ext_of_mem_iff (fun k => ?_) (by rw [h.size_eq, h'.size_eq, hset])
      rw [h.mem_iff, h'.mem_iff, ← List.mem_toFinset, ← List.mem_toFinset, hset]

end Occupancy

end PerfectKeys
