import Mathlib.Data.List.Forall2
import PerfectKeys.Proofs.Magic.Arithmetic

/-!
# What the leading octets tell

The first eight octets of a name are read into a row of eight cells, and cells that are left over
are zero. The row can be read off the word. No octet of a name is zero, and none becomes zero
without its case bit, since the blank is no octet of a name: so the octets end where the zeros
start, and a short name does not look like the start of a longer one.

Names of at most four octets have nothing in the upper half of the word. Folding it onto the lower
half then loses nothing.
-/

namespace PerfectKeys

namespace Octet

/-- The octets are the same but for bit `0x20`. -/
def SameButCaseBit (o o' : Octet) : Prop := o = o' ∨ o = o' ^^^ 0x20

/-- Nothing but the case bit is cleared. -/
theorem clearCaseBit_eq_zero_iff (o : Octet) : o.clearCaseBit = 0 ↔ o = 0 ∨ o = 0x20 := by
  refine forall_of_lt (p := fun o => clearCaseBit o = 0 ↔ o = 0 ∨ o = 0x20) ?_ o
  decide +kernel

/-- **Without their case bits octets are equal exactly when they are the same but for that bit.** -/
theorem clearCaseBit_eq_iff {o o' : Octet} :
    o.clearCaseBit = o'.clearCaseBit ↔ SameButCaseBit o o' := by
  -- the bits in which the two differ are an octet, too, and it loses its case bit like them
  have hxor : o.clearCaseBit ^^^ o'.clearCaseBit = clearCaseBit (o ^^^ o') := by
    refine UInt8.toNat_inj.mp ?_
    simp only [clearCaseBit, UInt8.toNat_xor, UInt8.toNat_and]
    exact Nat.and_xor_distrib_right.symm
  have hflip : o ^^^ o' = 0x20 ↔ o = o' ^^^ 0x20 := by
    rw [← UInt8.xor_left_inj o', UInt8.xor_assoc, UInt8.xor_self, UInt8.xor_zero, UInt8.xor_comm]
  unfold SameButCaseBit
  rw [← UInt8.xor_eq_zero_iff, hxor, clearCaseBit_eq_zero_iff, UInt8.xor_eq_zero_iff, hflip]

theorem map_clearCaseBit_eq_iff {a b : List Octet} :
    a.map clearCaseBit = b.map clearCaseBit ↔ List.Forall₂ SameButCaseBit a b := by
  rw [← List.forall₂_eq_eq_eq, List.forall₂_map_left_iff, List.forall₂_map_right_iff]
  simp only [clearCaseBit_eq_iff]

theorem ne_zero_of_isGraphic {o : Octet} (h : o.IsGraphic) : o ≠ 0 := by
  rintro rfl
  exact absurd h (by decide)

/-- An octet of a name is not lost with its case bit. -/
theorem clearCaseBit_ne_zero_of_isGraphic {o : Octet} (h : o.IsGraphic) : o.clearCaseBit ≠ 0 := by
  intro hzero
  rcases (clearCaseBit_eq_zero_iff o).mp hzero with rfl | rfl
  · exact absurd h (by decide)
  · exact absurd h (by decide)

end Octet

/-! ## The row of eight cells -/

/-- The first eight octets, with zeros behind them if there are fewer. -/
def padded (octets : List Octet) : List Octet :=
  octets.take 8 ++ List.replicate (8 - octets.length) 0

theorem length_padded (octets : List Octet) : (padded octets).length = 8 := by
  unfold padded
  rw [List.length_append, List.length_take, List.length_replicate]
  omega

/-- The word is the number that the row spells. -/
theorem toNat_leading_eq_padded (octets : List Octet) :
    (leading octets).toNat = Nat.ofDigits 256 ((padded octets).map UInt8.toNat) := by
  unfold padded
  rw [List.map_append, List.map_replicate, toNat_leading]
  exact (Nat.ofDigits_append_replicate_zero _).symm

/-- **The row can be read off the word.** -/
theorem leading_eq_iff_padded {a b : List Octet} : leading a = leading b ↔ padded a = padded b := by
  rw [← UInt64.toNat_inj, toNat_leading_eq_padded, toNat_leading_eq_padded]
  refine ⟨fun h => ?_, fun h => by rw [h]⟩
  have hlength : ((padded a).map UInt8.toNat).length = ((padded b).map UInt8.toNat).length := by
    rw [List.length_map, List.length_map, length_padded, length_padded]
  have hmap := Nat.ofDigits_inj_of_len_eq (by decide) hlength lt_of_mem_map_toNat
    lt_of_mem_map_toNat h
  exact List.map_injective_iff.mpr (fun _ _ => UInt8.toNat_inj.mp) hmap

/-- Octets that are not zero end where the zeros of the row start. -/
theorem takeWhile_padded {octets : List Octet} (h : ∀ o ∈ octets, o ≠ 0) :
    (padded octets).takeWhile (fun o => o ≠ 0) = octets.take 8 := by
  have hne : ∀ o ∈ octets.take 8, decide (o ≠ 0) = true :=
    fun o ho => decide_eq_true (h o (List.mem_of_mem_take ho))
  unfold padded
  rw [List.takeWhile_append_of_pos hne, List.takeWhile_replicate, if_neg (by decide),
    List.append_nil]

/-- **Among octets that are not zero, the word tells the first eight and how many there are.** -/
theorem leading_eq_iff {a b : List Octet} (ha : ∀ o ∈ a, o ≠ 0) (hb : ∀ o ∈ b, o ≠ 0) :
    leading a = leading b ↔ a.take 8 = b.take 8 := by
  refine ⟨fun h => ?_, fun h => ?_⟩
  · rw [← takeWhile_padded ha, leading_eq_iff_padded.mp h, takeWhile_padded hb]
  · rw [leading, leading, h]

/-! ## Words of four octets -/

theorem toNat_leading_lt {octets : List Octet} (h : octets.length ≤ 4) :
    (leading octets).toNat < 4294967296 := by
  rw [toNat_leading]
  refine Nat.lt_of_lt_of_le (Nat.ofDigits_lt_base_pow_length (by decide) lt_of_mem_map_toNat) ?_
  rw [List.length_map, List.length_take]
  exact Nat.pow_le_pow_right (by decide) (Nat.le_trans (Nat.min_le_right _ _) h)

/-- Nothing is lost where the upper half is empty. -/
theorem toNat_foldHalves_leading {octets : List Octet} (h : octets.length ≤ 4) :
    (foldHalves (leading octets)).toNat = (leading octets).toNat := by
  have hlt := toNat_leading_lt h
  rw [toNat_foldHalves, Nat.div_eq_of_lt hlt, Nat.mod_eq_of_lt hlt, Nat.zero_xor]

theorem foldHalves_leading_eq_iff {a b : List Octet} (ha : a.length ≤ 4) (hb : b.length ≤ 4) :
    foldHalves (leading a) = foldHalves (leading b) ↔ leading a = leading b := by
  rw [← UInt32.toNat_inj, toNat_foldHalves_leading ha, toNat_foldHalves_leading hb,
    UInt64.toNat_inj]

namespace Mnemonic

theorem octets_ne_zero (m : Mnemonic) : ∀ o ∈ m.octets, o ≠ 0 :=
  fun o ho => Octet.ne_zero_of_isGraphic (m.graphic o ho)

theorem map_clearCaseBit_ne_zero (m : Mnemonic) : ∀ o ∈ m.octets.map Octet.clearCaseBit, o ≠ 0 := by
  intro o ho
  obtain ⟨o', ho', rfl⟩ := List.mem_map.mp ho
  exact Octet.clearCaseBit_ne_zero_of_isGraphic (m.graphic o' ho')

theorem leading_octets_eq_iff {a b : Mnemonic} :
    leading a.octets = leading b.octets ↔ a.octets.take 8 = b.octets.take 8 :=
  leading_eq_iff a.octets_ne_zero b.octets_ne_zero

/-- **Without the case bits, the word tells the first eight octets but for that bit.** -/
theorem leading_map_clearCaseBit_eq_iff {a b : Mnemonic} :
    leading (a.octets.map Octet.clearCaseBit) = leading (b.octets.map Octet.clearCaseBit) ↔
      List.Forall₂ Octet.SameButCaseBit (a.octets.take 8) (b.octets.take 8) := by
  rw [leading_eq_iff a.map_clearCaseBit_ne_zero b.map_clearCaseBit_ne_zero, ← List.map_take,
    ← List.map_take, Octet.map_clearCaseBit_eq_iff]

/--
**The word tells the first eight octets.**

Two names have the same word exactly when their first eight octets are the same, or all of them
where there are fewer. Without the case bits, it is when there are as many and they are the same
but for those bits, so either way a short name is told from a longer one up to eight octets. Of
names with at most four octets, the folded words tell as much.
-/
theorem leading_tells_octets (a b : Mnemonic) :
    let mask : UInt64 := 0xDFDFDFDFDFDFDFDF
    let same := a.octets.take 8 = b.octets.take 8
    let alike := List.Forall₂ Octet.SameButCaseBit (a.octets.take 8) (b.octets.take 8)
    (leading a.octets = leading b.octets ↔ same) ∧
    (leading a.octets &&& mask = leading b.octets &&& mask ↔ alike) ∧
    (leading a.octets &&& mask = leading b.octets &&& mask → min 8 a.length = min 8 b.length) ∧
    (a.length ≤ 4 → b.length ≤ 4 →
      (foldHalves (leading a.octets) = foldHalves (leading b.octets) ↔ same) ∧
      (foldHalves (leading a.octets &&& mask) = foldHalves (leading b.octets &&& mask) ↔
        alike)) := by
  intro mask same alike
  have hmask (m : Mnemonic) :
      leading m.octets &&& mask = leading (m.octets.map Octet.clearCaseBit) :=
    leading_and_caseMask m.octets
  rw [hmask, hmask]
  refine ⟨leading_octets_eq_iff, leading_map_clearCaseBit_eq_iff, fun h => ?_,
    fun ha hb => ⟨?_, ?_⟩⟩
  · have hlength := (leading_map_clearCaseBit_eq_iff.mp h).length_eq
    rwa [List.length_take, List.length_take] at hlength
  · rw [foldHalves_leading_eq_iff ha hb]
    exact leading_octets_eq_iff
  · rw [foldHalves_leading_eq_iff (by rwa [List.length_map]) (by rwa [List.length_map])]
    exact leading_map_clearCaseBit_eq_iff

/-- A brace and a bracket differ in the case bit only, though they are no letters. -/
theorem leading_tells_octets_bracket :
    let mask : UInt64 := 0xDFDFDFDFDFDFDFDF
    let a : Mnemonic := ⟨[0x61, 0x7B], List.cons_ne_nil _ _, by decide +kernel⟩
    let b : Mnemonic := ⟨[0x41, 0x5B], List.cons_ne_nil _ _, by decide +kernel⟩
    a.length ≤ 4 ∧ b.length ≤ 4 ∧ leading a.octets ≠ leading b.octets ∧
      leading a.octets &&& mask = leading b.octets &&& mask ∧
      min 8 a.length = min 8 b.length ∧
      foldHalves (leading a.octets) ≠ foldHalves (leading b.octets) ∧
      foldHalves (leading a.octets &&& mask) = foldHalves (leading b.octets &&& mask) := by
  intro mask a b
  have halike : List.Forall₂ Octet.SameButCaseBit (a.octets.take 8) (b.octets.take 8) :=
    .cons (Or.inr rfl) (.cons (Or.inr rfl) .nil)
  have hne : a.octets.take 8 ≠ b.octets.take 8 := by decide
  obtain ⟨hsame, hmask, hlength, hshort⟩ := leading_tells_octets a b
  obtain ⟨hfolded, hfoldedMask⟩ := hshort (by decide) (by decide)
  exact ⟨by decide, by decide, fun h => hne (hsame.mp h), hmask.mpr halike,
    hlength (hmask.mpr halike), fun h => hne (hfolded.mp h), hfoldedMask.mpr halike⟩

end Mnemonic

end PerfectKeys
