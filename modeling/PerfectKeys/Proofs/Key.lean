import Mathlib.Data.Int.ModEq
import PerfectKeys.Key
import PerfectKeys.Proofs.Magic.Hash

/-!
# When two mnemonics share a key

A key is made from three numbers: the first octet, the last octet and the length. Clearing the
case bit leaves the lowest five bits of an octet alone, so the bucket is the first octet modulo
32, counted from `'A'`. The slot is a sum modulo 256, and seven has an inverse there: of two
mnemonics with the same length, the last octets can be told apart up to the case bit.

What lies between the two ends does not count, and neither does the case of any letter. No cell
is out of reach: seven times a fixed last octet is a fixed number, and lengths go through all
remainders.
-/

namespace PerfectKeys

namespace Octet

/-- The case bit is none of the lowest five. -/
theorem toNat_clearCaseBit_mod (o : Octet) : o.clearCaseBit.toNat % 32 = o.toNat % 32 := by
  unfold clearCaseBit
  rw [UInt8.toNat_and]
  show (o.toNat &&& 0xDF) % 2 ^ 5 = o.toNat % 2 ^ 5
  rw [Nat.and_mod_two_pow]
  exact (Nat.and_two_pow_sub_one_eq_mod (o.toNat % 2 ^ 5) 5).trans (Nat.mod_mod _ _)

end Octet

namespace Key

/-! ## Buckets and slots in exact numbers -/

/-- The bucket of `'A'` is zero. -/
theorem bucketOf_add_one (m : Mnemonic) : ((bucketOf m).val + 1) % 32 = m.first.toNat % 32 := by
  have hlt : m.first.clearCaseBit.toNat < 256 := m.first.clearCaseBit.toNat_lt
  have hfirst := m.first.toNat_clearCaseBit_mod
  have hsub : (m.first.clearCaseBit - 0x41).toNat
      = (256 - 0x41 + m.first.clearCaseBit.toNat) % 256 :=
    UInt8.toNat_sub _ _
  show ((m.first.clearCaseBit - 0x41).toNat % 32 + 1) % 32 = _
  rw [hsub]
  omega

theorem toNat_slotOf (m : Mnemonic) :
    (slotOf m).toNat = (7 * m.last.clearCaseBit.toNat + m.length) % 256 := by
  unfold slotOf
  rw [UInt8.toNat_add, UInt8.toNat_mul, UInt8.toNat_ofNat']
  show (7 * m.last.clearCaseBit.toNat % 256 + m.length % 256) % 256 = _
  rw [← Nat.add_mod]

section Pairs

variable {a b : Mnemonic}

theorem bucketOf_eq_iff : bucketOf a = bucketOf b ↔ a.first.toNat ≡ b.first.toNat [MOD 32] := by
  have ha := bucketOf_add_one a
  have hb := bucketOf_add_one b
  have hlta := (bucketOf a).isLt
  have hltb := (bucketOf b).isLt
  rw [Fin.ext_iff, Nat.ModEq]
  omega

theorem slotOf_eq_iff : slotOf a = slotOf b ↔
    7 * ((a.last.clearCaseBit.toNat : Int) - b.last.clearCaseBit.toNat)
      ≡ (b.length : Int) - a.length [ZMOD 256] := by
  rw [← UInt8.toNat_inj, toNat_slotOf, toNat_slotOf, Int.ModEq]
  omega

theorem of_eq_iff : of a = of b ↔ bucketOf a = bucketOf b ∧ slotOf a = slotOf b := by
  unfold of
  rw [Key.mk.injEq]

/-- Modulo 256 a factor of seven can be cancelled. -/
theorem slotOf_eq_iff_of_length (hlength : a.length ≡ b.length [MOD 256]) :
    slotOf a = slotOf b ↔ a.last.clearCaseBit = b.last.clearCaseBit := by
  have ha := a.last.clearCaseBit.toNat_lt
  have hb := b.last.clearCaseBit.toNat_lt
  rw [Nat.ModEq] at hlength
  rw [← UInt8.toNat_inj, ← UInt8.toNat_inj, toNat_slotOf, toNat_slotOf]
  omega

/-- The key sees the ends and the length only, and the ends without their case bits. -/
theorem of_eq_of_ends (hfirst : a.first.clearCaseBit = b.first.clearCaseBit)
    (hlast : a.last.clearCaseBit = b.last.clearCaseBit) (hlength : a.length = b.length) :
    of a = of b := by
  unfold of bucketOf slotOf
  rw [hfirst, hlast, hlength]

theorem of_eq_of_equalIgnoringCase (h : EqualIgnoringCase a.text b.text) : of a = of b := by
  have hclear : a.octets.map Octet.clearCaseBit = b.octets.map Octet.clearCaseBit := by
    rw [← Octet.map_clearCaseBit_lower, equalIgnoringCase_text.mp h, Octet.map_clearCaseBit_lower]
  refine of_eq_of_ends ?_ ?_ ?_
  · have hhead := congrArg List.head? hclear
    rw [List.head?_map, List.head?_map, List.head?_eq_some_head a.ne_nil,
      List.head?_eq_some_head b.ne_nil] at hhead
    exact Option.some.inj hhead
  · have hlast := congrArg List.getLast? hclear
    rw [List.getLast?_map, List.getLast?_map, List.getLast?_eq_some_getLast a.ne_nil,
      List.getLast?_eq_some_getLast b.ne_nil] at hlast
    exact Option.some.inj hlast
  · have hlength := congrArg List.length hclear
    rwa [List.length_map, List.length_map] at hlength

end Pairs

/-! ## Every cell -/

/-- A mnemonic for the cell: the first octet is the bucket's, and as many letters `'A'` follow as
make up the slot. -/
def sample (k : Key) : Mnemonic where
  octets := UInt8.ofNat (0x41 + k.bucket.val) :: List.replicate ((k.slot.toNat + 55) % 256 + 1) 0x41
  ne_nil := List.cons_ne_nil _ _
  graphic := by
    intro o ho
    rcases List.mem_cons.mp ho with rfl | ho
    · have := k.bucket.isLt
      rw [Octet.isGraphic_iff, UInt8.toNat_ofNat_of_lt' (by show _ < 256; omega)]
      omega
    · rw [List.eq_of_mem_replicate ho]
      decide

theorem of_sample (k : Key) : of k.sample = k := by
  have hbucket := k.bucket.isLt
  have hslot := k.slot.toNat_lt
  refine eq_of_parts ?_ ?_
  · have hfirst : k.sample.first.toNat = 0x41 + k.bucket.val :=
      UInt8.toNat_ofNat_of_lt' (by show _ < 256; omega)
    have hadd := bucketOf_add_one k.sample
    have hlt := (bucketOf k.sample).isLt
    show (bucketOf k.sample).val = _
    omega
  · have hlast : k.sample.last = 0x41 := by
      show (_ :: List.replicate _ _).getLast _ = _
      rw [List.getLast_cons (by simp), List.getLast_replicate]
    have hlength : k.sample.length = (k.slot.toNat + 55) % 256 + 2 := by
      show (_ :: List.replicate _ _).length = _
      rw [List.length_cons, List.length_replicate]
    show (slotOf k.sample).toNat = _
    rw [toNat_slotOf, hlast, hlength]
    show (7 * 65 + _) % 256 = _
    omega

/--
**When two mnemonics share a key.**

Their first octets agree modulo 32, and seven times the difference of their last octets, case bits
cleared, is what the lengths differ by modulo 256. Where the lengths do not differ modulo 256, the
last octets agree up to the case bit. Inner octets and the case of letters never show in a key,
and every cell is the key of some mnemonic.
-/
theorem of_eq_iff_ends :
    (∀ a b : Mnemonic, of a = of b ↔
      a.first.toNat ≡ b.first.toNat [MOD 32] ∧
        7 * ((a.last.clearCaseBit.toNat : Int) - b.last.clearCaseBit.toNat)
          ≡ (b.length : Int) - a.length [ZMOD 256]) ∧
    (∀ a b : Mnemonic, a.length ≡ b.length [MOD 256] →
      (of a = of b ↔ a.first.toNat ≡ b.first.toNat [MOD 32] ∧
        a.last.clearCaseBit = b.last.clearCaseBit)) ∧
    (∀ a b : Mnemonic, a.first = b.first → a.last = b.last → a.length = b.length → of a = of b) ∧
    (∀ a b : Mnemonic, EqualIgnoringCase a.text b.text → of a = of b) ∧
    ∀ k : Key, ∃ m : Mnemonic, of m = k := by
  refine ⟨fun a b => ?_, fun a b hlength => ?_, fun a b hfirst hlast hlength => ?_,
    fun a b h => of_eq_of_equalIgnoringCase h, fun k => ⟨k.sample, of_sample k⟩⟩
  · rw [of_eq_iff, bucketOf_eq_iff, slotOf_eq_iff]
  · rw [of_eq_iff, bucketOf_eq_iff, slotOf_eq_iff_of_length hlength]
  · exact of_eq_of_ends (by rw [hfirst]) (by rw [hlast]) hlength

/-- Neither the middle nor the case keeps two mnemonics apart. A last octet more does. -/
theorem of_eq_iff_ends_nsec :
    let a : Mnemonic := ⟨octetsOf "NSEC", by decide +kernel, by decide +kernel⟩
    let b : Mnemonic := ⟨octetsOf "nsic", by decide +kernel, by decide +kernel⟩
    let c : Mnemonic := ⟨octetsOf "NSEC3", by decide +kernel, by decide +kernel⟩
    of a = of b ∧ of a ≠ of c := by
  intro a b c
  obtain ⟨hany, hsame, -, -, -⟩ := of_eq_iff_ends
  refine ⟨(hsame a b (by decide +kernel)).mpr ⟨by decide +kernel, by decide +kernel⟩, fun h => ?_⟩
  have hslots := ((hany a c).mp h).2
  revert hslots
  decide +kernel

end Key

end PerfectKeys
