import Mathlib.Data.Nat.Digits.Lemmas
import PerfectKeys.Proofs.Magic.Lookup
import PerfectKeys.Proofs.Magic.Separation

/-!
# The slot in exact numbers

A slot is computed in words: octets are shifted into 64 bits, the halves are folded, a product
and a sum wrap, and a mask and a cut to eight bits are all that is left at the end. None of the
wrapping shows. The word of some octets is the number that they spell in base 256, and masks and
cuts are remainders of powers of two that divide each other. So the slot is a formula in natural
numbers, and it does not matter whether the upper half of the product is cut to an octet before
it is masked or after.

As a remainder, the slot lies below the number of slots. So a program that keeps its flags and
cells in rows never reads or writes outside of them, and what it finds with them is what was
computed without.
-/

namespace PerfectKeys

/-! ## Octets as digits -/

/-- Shifting an octet in from below adds a digit to the base of 256. -/
theorem toNat_shiftLeft_or {value : UInt64} (o : Octet)
    (h : value.toNat < 72057594037927936) :
    (value <<< 8 ||| o.toUInt64).toNat = o.toNat + 256 * value.toNat := by
  have hshift : (value <<< 8).toNat = value.toNat <<< 8 := by
    rw [UInt64.toNat_shiftLeft]
    show value.toNat <<< 8 % 18446744073709551616 = value.toNat <<< 8
    refine Nat.mod_eq_of_lt ?_
    rw [Nat.shiftLeft_eq]
    omega
  have ho : o.toNat < 2 ^ 8 := o.toNat_lt
  rw [UInt64.toNat_or, hshift, UInt8.toNat_toUInt64, ← Nat.shiftLeft_add_eq_or_of_lt ho,
    Nat.shiftLeft_eq]
  omega

/-- Octets are digits to the base of 256. -/
theorem lt_of_mem_map_toNat {octets : List Octet} : ∀ d ∈ octets.map UInt8.toNat, d < 256 := by
  intro d hd
  obtain ⟨o, -, rfl⟩ := List.mem_map.mp hd
  exact o.toNat_lt

/-- **The word of some octets is the number that the first eight of them spell.** -/
theorem toNat_leading (octets : List Octet) :
    (leading octets).toNat = Nat.ofDigits 256 ((octets.take 8).map UInt8.toNat) := by
  have hlen : (octets.take 8).length ≤ 8 := List.length_take_le 8 octets
  unfold leading
  generalize octets.take 8 = l at hlen ⊢
  -- an octet is shifted in below at most seven others, so no bit is lost
  induction l with
  | nil => rfl
  | cons o rest ih =>
      have hrest : rest.length ≤ 7 := Nat.le_of_succ_le_succ hlen
      have ih := ih (Nat.le_succ_of_le hrest)
      have hsmall : Nat.ofDigits 256 (rest.map UInt8.toNat) < 72057594037927936 := by
        refine Nat.lt_of_lt_of_le
          (Nat.ofDigits_lt_base_pow_length (by decide) lt_of_mem_map_toNat) ?_
        rw [List.length_map]
        exact Nat.pow_le_pow_right (by decide) hrest
      rw [← ih] at hsmall
      rw [List.foldr_cons, toNat_shiftLeft_or o hsmall, ih, List.map_cons, Nat.ofDigits_cons]

namespace Scheme

/-- What a scheme sees of an octet. -/
def seen (s : Scheme) (o : Octet) : Octet := if s.foldsCase then o.clearCaseBit else o

/-- The number that the first eight octets spell, least significant first. -/
def number (s : Scheme) (m : Mnemonic) : Nat :=
  ((m.octets.take 8).mapIdx fun i o => (s.seen o).toNat * 256 ^ i).sum

/-- The word is made of the octets as they are seen. -/
theorem word_eq_leading_seen (s : Scheme) (m : Mnemonic) :
    s.word m = leading (m.octets.map s.seen) := by
  have hseen : (if s.foldsCase then m.octets.map Octet.clearCaseBit else m.octets)
      = m.octets.map s.seen := by
    unfold seen
    split
    · rfl
    · exact (List.map_id m.octets).symm
  rw [word_eq_leading, hseen]

theorem toNat_word (s : Scheme) (m : Mnemonic) : (s.word m).toNat = s.number m := by
  have hdigits (l : List Octet) : ((l.map s.seen).map UInt8.toNat).mapIdx (fun i d => d * 256 ^ i)
      = l.mapIdx fun i o => (s.seen o).toNat * 256 ^ i := by
    refine List.ext_getElem? fun i => ?_
    simp only [List.getElem?_mapIdx, List.getElem?_map, Option.map_map]
    rfl
  rw [word_eq_leading_seen, toNat_leading, ← List.map_take, Nat.ofDigits_eq_sum_mapIdx, hdigits,
    number]

/-- The fold is made from the number. -/
theorem fold_eq_number (s : Scheme) (m : Mnemonic) :
    s.fold m = s.number m % 4294967296 ^^^ s.number m / 4294967296 := by
  rw [fold, ← word_eq_leading, toNat_word, Nat.xor_comm]

/-! ## The product and the sum -/

/-- The upper half of the product, in 64 bits. -/
def upper (s : Scheme) (magic : UInt64) (m : Mnemonic) : UInt64 :=
  ((s.digest m).folded.toUInt64 * magic) >>> 32

theorem toNat_upper (s : Scheme) (magic : UInt64) (m : Mnemonic) :
    (s.upper magic m).toNat
      = s.fold m * magic.toNat % 18446744073709551616 / 4294967296 := by
  unfold upper
  rw [UInt64.toNat_shiftRight, UInt64.toNat_mul, UInt32.toNat_toUInt64, toNat_folded]
  exact Nat.shiftRight_eq_div_pow _ 32

/-- The slot is a remainder of the upper half and the length. -/
theorem slot_eq_upper (s : Scheme) (magic : UInt64) (m : Mnemonic) :
    s.slot magic m
      = ((s.upper magic m).toNat + if s.addsLength then m.length else 0) % s.slots := rfl

/-! ## Masks and cuts -/

/-- One less than the number of slots, in sixteen bits. -/
def mask (s : Scheme) : UInt16 := UInt16.ofNat s.slots - 1

theorem toNat_mask (s : Scheme) : s.mask.toNat = s.slots - 1 := by
  have h : ∀ width : Fin 9, (UInt16.ofNat (Nat.pow 2 width.val) - 1).toNat
      = Nat.pow 2 width.val - 1 := by decide
  exact h s.width

/-- There are 256 values in an octet, and the slots divide them evenly. -/
theorem slots_dvd_octet (s : Scheme) : s.slots ∣ 256 := by
  have h : ∀ width : Fin 9, Nat.pow 2 width.val ∣ 256 := by decide
  exact h s.width

/-- Masking is taking the remainder. -/
theorem and_mask (s : Scheme) (n : Nat) : n &&& s.mask.toNat = n % s.slots := by
  rw [toNat_mask]
  exact Nat.and_two_pow_sub_one_eq_mod n s.width.val

/-- The slot as words compute it, with a sum that wraps, a mask, and a cut to an octet. -/
def slotWord (s : Scheme) (magic : UInt64) (m : Mnemonic) : UInt8 :=
  let hash := if s.addsLength then s.upper magic m + UInt64.ofNat m.length else s.upper magic m
  (hash &&& s.mask.toUInt64).toUInt8

/-- The slot of a name whose octets are masked one by one. Without the length, the upper half is
cut to an octet first. -/
def slotCutFirst (s : Scheme) (magic : UInt64) (m : Mnemonic) : UInt8 :=
  let word := leading (m.octets.map s.seen)
  let upper := (((word >>> 32) ^^^ word).toUInt32.toUInt64 * magic) >>> 32
  if s.addsLength then ((upper + UInt64.ofNat m.length) &&& s.mask.toUInt64).toUInt8
  else upper.toUInt8 &&& s.mask.toUInt8

/-- Remainders of the slots are kept by what wraps at a multiple of them. -/
theorem add_ofNat_mod (s : Scheme) (x : UInt64) (n : Nat) :
    (x + UInt64.ofNat n).toNat % s.slots = (x.toNat + n) % s.slots := by
  have hdvd : s.slots ∣ 18446744073709551616 := Nat.dvd_trans s.slots_dvd_octet (by decide)
  rw [UInt64.toNat_add, UInt64.toNat_ofNat']
  show (x.toNat + n % 18446744073709551616) % 18446744073709551616 % s.slots = _
  rw [Nat.mod_mod_of_dvd _ hdvd, Nat.add_mod, Nat.mod_mod_of_dvd _ hdvd, ← Nat.add_mod]

/-- What is masked fits in an octet. -/
theorem toNat_and_mask_toUInt8 (s : Scheme) (x : UInt64) :
    (x &&& s.mask.toUInt64).toUInt8.toNat = x.toNat % s.slots := by
  have hlt : x.toNat % s.slots < 256 :=
    Nat.lt_of_lt_of_le (Nat.mod_lt _ s.slots_pos) s.slots_le
  rw [UInt64.toNat_toUInt8, UInt64.toNat_and, UInt16.toNat_toUInt64, and_mask]
  exact Nat.mod_eq_of_lt hlt

theorem toNat_toUInt8_and_mask (s : Scheme) (x : UInt64) :
    (x.toUInt8 &&& s.mask.toUInt8).toNat = x.toNat % s.slots := by
  have hmask : s.mask.toUInt8.toNat = s.mask.toNat := by
    rw [UInt16.toNat_toUInt8, toNat_mask]
    have := s.slots_le
    exact Nat.mod_eq_of_lt (by omega)
  rw [UInt8.toNat_and, hmask, and_mask, UInt64.toNat_toUInt8]
  exact Nat.mod_mod_of_dvd _ s.slots_dvd_octet

/-- **The slot in words is the slot.** -/
theorem toNat_slotWord (s : Scheme) (magic : UInt64) (m : Mnemonic) :
    (s.slotWord magic m).toNat = s.slot magic m := by
  rw [slotWord, toNat_and_mask_toUInt8, slot_eq_upper]
  by_cases h : s.addsLength = true
  · rw [if_pos h, if_pos h, add_ofNat_mod]
  · rw [if_neg h, if_neg h, Nat.add_zero]

/-- **Cutting first and masking octet by octet make no difference.** -/
theorem toNat_slotCutFirst (s : Scheme) (magic : UInt64) (m : Mnemonic) :
    (s.slotCutFirst magic m).toNat = s.slot magic m := by
  have hupper : (((s.word m >>> 32) ^^^ s.word m).toUInt32.toUInt64 * magic) >>> 32
      = s.upper magic m := rfl
  unfold slotCutFirst
  rw [← word_eq_leading_seen]
  dsimp only
  rw [hupper, slot_eq_upper]
  by_cases h : s.addsLength = true
  · rw [if_pos h, if_pos h, toNat_and_mask_toUInt8, add_ofNat_mod]
  · rw [if_neg h, if_neg h, toNat_toUInt8_and_mask, Nat.add_zero]

end Scheme

/-! ## Rows that are indexed by slots -/

/-- Looks for the first element that finds its flag set, and sets the flags of those before it.
There is no answer when an element has no flag in the row. -/
def firstFlagged? {α : Type} (slot : α → Nat) : List Bool → List α → Option (Option α)
  | _, [] => some none
  | flags, a :: rest =>
      match flags[slot a]? with
      | none => none
      | some true => some (some a)
      | some false => firstFlagged? slot (flags.set (slot a) true) rest

/-- **A row with a flag for every slot finds the first repetition.** -/
theorem firstFlagged?_eq_some {α : Type} {slot : α → Nat} {flags : List Bool} {seen : List Nat}
    {l : List α} (hflags : ∀ i < flags.length, flags[i]? = some (decide (i ∈ seen)))
    (hl : ∀ a ∈ l, slot a < flags.length) :
    firstFlagged? slot flags l = some (firstRepeatAfter? slot seen l) := by
  -- what was seen is what is flagged, and both grow by the same slot
  induction l generalizing flags seen with
  | nil => rfl
  | cons a l ih =>
      have ha := hflags (slot a) (hl a List.mem_cons_self)
      rw [firstFlagged?, firstRepeatAfter?, ha]
      by_cases hseen : slot a ∈ seen
      · rw [decide_eq_true hseen, if_pos hseen]
      · rw [decide_eq_false hseen, if_neg hseen]
        refine ih ?_ ?_
        · intro i hi
          rw [List.length_set] at hi
          by_cases hia : slot a = i
          · subst hia
            rw [List.getElem?_set_self hi]
            simp
          · rw [List.getElem?_set_ne hia, hflags i hi]
            simp [Ne.symm hia]
        · intro b hb
          rw [List.length_set]
          exact hl b (List.mem_cons_of_mem a hb)

/-- Under a magic value, 256 flags are enough to find the first name whose slot is taken. -/
theorem Scheme.firstFlagged?_slot (s : Scheme) (magic : UInt64)
    (digests : List (Mnemonic × Digest)) :
    (firstFlagged? (fun p => s.place magic p.2) (List.replicate 256 false) digests).map
      (Option.map (·.1)) = some (s.firstClash? digests magic) := by
  have hrow : ∀ i < (List.replicate 256 false).length,
      (List.replicate 256 false)[i]? = some (decide (i ∈ ([] : List Nat))) := by
    intro i hi
    rw [List.length_replicate] at hi
    rw [List.getElem?_replicate, if_pos hi]
    simp
  have hslot : ∀ p ∈ digests, s.place magic p.2 < (List.replicate 256 false).length := by
    intro p _
    rw [List.length_replicate]
    exact Nat.lt_of_lt_of_le (Nat.mod_lt _ s.slots_pos) s.slots_le
  rw [firstFlagged?_eq_some hrow hslot]
  rfl

namespace MagicTable

/-- Writes entries into a row of cells. There is no answer when an entry has no cell in it. -/
def writeAll? (cells : List (Option MagicEntry)) (entries : List MagicEntry) :
    Option (List (Option MagicEntry)) :=
  entries.foldlM (fun cells e =>
    if e.slot < cells.length then some (cells.set e.slot (some e)) else none) cells

theorem writeAll?_eq_some {cells : List (Option MagicEntry)} {entries : List MagicEntry}
    (h : ∀ e ∈ entries, e.slot < cells.length) : writeAll? cells entries
      = some (entries.foldl (fun cells e => cells.set e.slot (some e)) cells) := by
  unfold writeAll?
  induction entries generalizing cells with
  | nil => rfl
  | cons e rest ih =>
      rw [List.foldlM_cons, List.foldl_cons, if_pos (h e List.mem_cons_self)]
      refine ih fun e' he' => ?_
      rw [List.length_set]
      exact h e' (List.mem_cons_of_mem e he')

/-- Every entry of a table of names has its cell, whatever the magic value. -/
theorem writeAll?_ofNames (s : Scheme) (magic : UInt64) (names : List CodedName) :
    writeAll? (List.replicate s.slots none) (ofNames s magic names).entries
      = some (ofNames s magic names).cells := by
  refine writeAll?_eq_some fun e he => ?_
  obtain ⟨n, -, rfl⟩ := List.mem_map.mp he
  rw [List.length_replicate]
  exact s.slot_lt magic n.name

end MagicTable

/--
**The slot is exact arithmetic.**

Let the first eight octets of a name, seen without case where the scheme ignores it, spell a
number in base 256, and fold its upper half onto its lower. The slot is the upper half of the
product with the magic value, within 64 bits, plus the length where it counts, modulo the number
of slots. This is what 64-bit words compute that wrap, mask and cut, and it does not matter
whether the upper half is cut to an octet before it is masked. So the slot lies in the table, and
the rows of flags and cells that are indexed by slots are never left.
-/
theorem slot_eq_arithmetic (s : Scheme) (magic : UInt64) (m : Mnemonic) :
    let number := ((m.octets.take 8).mapIdx fun i o =>
      (if s.foldsCase then o &&& 0xDF else o).toNat * 256 ^ i).sum
    let fold := number % 4294967296 ^^^ number / 4294967296
    let length := if s.addsLength then m.octets.length else 0
    s.slot magic m
        = (fold * magic.toNat % 18446744073709551616 / 4294967296 + length) % s.slots ∧
      (s.slotWord magic m).toNat = s.slot magic m ∧
      s.slotCutFirst magic m = s.slotWord magic m ∧
      s.slot magic m < s.slots ∧ s.slots ≤ 256 ∧
      (∀ digests, (firstFlagged? (fun p => s.place magic p.2) (List.replicate 256 false)
        digests).map (Option.map (·.1)) = some (s.firstClash? digests magic)) ∧
      (∀ names, MagicTable.writeAll? (List.replicate s.slots none)
        (MagicTable.ofNames s magic names).entries
          = some (MagicTable.ofNames s magic names).cells) := by
  intro number fold length
  have hfold : s.fold m = fold := s.fold_eq_number m
  refine ⟨?_, s.toNat_slotWord magic m, ?_, s.slot_lt magic m, s.slots_le,
    s.firstFlagged?_slot magic, MagicTable.writeAll?_ofNames s magic⟩
  · rw [Scheme.slot_eq_upper, Scheme.toNat_upper, hfold]
    rfl
  · refine UInt8.toNat_inj.mp ?_
    rw [Scheme.toNat_slotCutFirst, Scheme.toNat_slotWord]

end PerfectKeys
