import PerfectKeys.Proofs.Spelling

/-!
# What a slot depends on

A slot is made from a word, and the word from the first eight octets of a name. Two facts
about it carry everything else.

* **Case.** Clearing bit `0x20` in the word is clearing it in every octet. A letter loses
  its case that way, so names that match have the same word and the same length, and with
  them the same slot under every magic value.
* **Arithmetic.** The product of the folded word and the magic value wraps at 64 bits and
  is cut at 32, but a table has at most 256 slots. The wrapping is never seen: the slot is
  the exact product, cut and reduced.
-/

namespace PerfectKeys

/-! ## Case -/

namespace Octet

/-- There are 256 octets. -/
theorem forall_of_lt {p : Octet → Prop} (h : ∀ n < 256, p (UInt8.ofNat n)) (o : Octet) : p o := by
  have ho := h o.toNat o.toNat_lt
  rwa [UInt8.ofNat_toNat] at ho

theorem clearCaseBit_lower (o : Octet) : o.lower.clearCaseBit = o.clearCaseBit := by
  refine forall_of_lt (p := fun o => clearCaseBit (lower o) = clearCaseBit o) ?_ o
  decide +kernel

theorem map_clearCaseBit_lower (octets : List Octet) :
    (octets.map lower).map clearCaseBit = octets.map clearCaseBit := by
  rw [List.map_map]
  exact List.map_congr_left fun o _ => clearCaseBit_lower o

end Octet

/-- The mask of the word has a zero at bit 5 of every octet. -/
theorem getLsbD_caseMask {i : Nat} (h : i < 64) :
    (0xDFDFDFDFDFDFDFDF#64).getLsbD i = decide (i % 8 ≠ 5) := by
  revert i
  decide +kernel

theorem getLsbD_octetMask {i : Nat} (h : i < 8) : (0xDF#8).getLsbD i = decide (i % 8 ≠ 5) := by
  revert i
  decide +kernel

/-- Masking a word masks its lowest octet and what lies above. -/
theorem shiftLeft_or_and_caseMask (value : UInt64) (o : Octet) :
    (value <<< 8 ||| o.toUInt64) &&& (0xDFDFDFDFDFDFDFDF : UInt64)
      = (value &&& 0xDFDFDFDFDFDFDFDF) <<< 8 ||| o.clearCaseBit.toUInt64 := by
  refine UInt64.toBitVec_inj.mp (BitVec.eq_of_getLsbD_eq fun i hi => ?_)
  have hshift (x : BitVec 64) :
      (x <<< (UInt64.toBitVec 8 % 64)).getLsbD i = (!decide (i < 8) && x.getLsbD (i - 8)) := by
    show (x <<< (8#64).toNat).getLsbD i = _
    rw [BitVec.getLsbD_shiftLeft, decide_eq_true hi, Bool.true_and]
    rfl
  simp only [Octet.clearCaseBit, UInt64.toBitVec_and, UInt64.toBitVec_or, UInt64.toBitVec_shiftLeft,
    UInt8.toBitVec_toUInt64, UInt8.toBitVec_and, BitVec.getLsbD_and, BitVec.getLsbD_or,
    BitVec.getLsbD_setWidth, hshift, decide_eq_true hi, Bool.true_and]
  change ((!decide (i < 8) && value.toBitVec.getLsbD (i - 8) || o.toBitVec.getLsbD i)
      && (0xDFDFDFDFDFDFDFDF#64).getLsbD i)
    = (!decide (i < 8) && (value.toBitVec.getLsbD (i - 8)
        && (0xDFDFDFDFDFDFDFDF#64).getLsbD (i - 8))
      || o.toBitVec.getLsbD i && (0xDF#8).getLsbD i)
  by_cases h8 : i < 8
  · rw [getLsbD_caseMask hi, getLsbD_octetMask h8]
    simp [h8]
  · -- the mask looks the same eight places further up
    have hout : o.toBitVec.getLsbD i = false := BitVec.getLsbD_of_ge _ _ (Nat.le_of_not_lt h8)
    have hmod : (i - 8) % 8 = i % 8 := by omega
    rw [getLsbD_caseMask hi, getLsbD_caseMask (by omega), hmod, hout]
    simp [h8]

/-- Masking the word of some octets masks each octet. -/
theorem leading_and_caseMask (octets : List Octet) :
    leading octets &&& (0xDFDFDFDFDFDFDFDF : UInt64) = leading (octets.map Octet.clearCaseBit) := by
  unfold leading
  rw [← List.map_take]
  induction octets.take 8 with
  | nil => rfl
  | cons o rest ih =>
      rw [List.foldr_cons, List.map_cons, List.foldr_cons, shiftLeft_or_and_caseMask, ih]

namespace Scheme

/-- Where case is ignored, the word is that of the octets without their case bits. -/
theorem word_eq_leading (s : Scheme) (m : Mnemonic) : s.word m
    = leading (if s.foldsCase then m.octets.map Octet.clearCaseBit else m.octets) := by
  unfold word
  split
  · rw [leading_and_caseMask]
  · rfl

/-- What two matching names have in common decides their words. -/
theorem word_eq_of_matches {s : Scheme} {a b : Mnemonic} (h : s.Matches a b) :
    s.word a = s.word b := by
  unfold Matches spelling at h
  rw [word_eq_leading, word_eq_leading]
  by_cases hf : s.foldsCase = true
  · rw [if_pos hf, if_pos hf] at h
    rw [if_pos hf, if_pos hf, ← Octet.map_clearCaseBit_lower, h, Octet.map_clearCaseBit_lower]
  · rw [if_neg hf, if_neg hf] at h
    rw [if_neg hf, if_neg hf, h]

theorem length_eq_of_matches {s : Scheme} {a b : Mnemonic} (h : s.Matches a b) :
    a.length = b.length := by
  unfold Matches spelling at h
  unfold Mnemonic.length
  split at h
  · have := congrArg List.length h
    rwa [List.length_map, List.length_map] at this
  · rw [h]

/-- **Names that match share their slot under every magic value.** -/
theorem slot_eq_of_matches {s : Scheme} {a b : Mnemonic} (h : s.Matches a b) (magic : UInt64) :
    s.slot magic a = s.slot magic b := by
  have hd : s.digest a = s.digest b := by
    unfold digest
    rw [word_eq_of_matches h, length_eq_of_matches h]
  rw [slot, hd, slot]

/-! ## Arithmetic -/

/-- There are 2³² values in the upper half of a product, and the slots divide them evenly. -/
theorem slots_dvd (s : Scheme) : s.slots ∣ 4294967296 := by
  have h : ∀ width : Fin 9, Nat.pow 2 width.val ∣ 4294967296 := by decide
  exact h s.width

theorem slots_le (s : Scheme) : s.slots ≤ 256 := by
  have h : ∀ width : Fin 9, Nat.pow 2 width.val ≤ 256 := by decide
  exact h s.width

/-- The slot in exact numbers: the product need not be wrapped. -/
theorem slot_eq (s : Scheme) (magic : UInt64) (m : Mnemonic) :
    s.slot magic m
      = ((s.digest m).folded.toNat * magic.toNat / 4294967296 + (s.digest m).addend) % s.slots := by
  -- wrapping drops multiples of 2⁶⁴, which are multiples of 2³² in the upper half
  have hupper (x : Nat) : x % 18446744073709551616 / 4294967296 = x / 4294967296 % 4294967296 :=
    Nat.mod_mul_right_div_self x 4294967296 4294967296
  have hproduct : (((s.digest m).folded.toUInt64 * magic) >>> 32).toNat
      = (s.digest m).folded.toNat * magic.toNat / 4294967296 % 4294967296 := by
    rw [UInt64.toNat_shiftRight, UInt64.toNat_mul, UInt32.toNat_toUInt64]
    show ((s.digest m).folded.toNat * magic.toNat % 18446744073709551616) >>> 32 = _
    rw [Nat.shiftRight_eq_div_pow]
    exact hupper _
  -- and those are dropped again by the reduction to the number of slots
  rw [slot, place, hproduct, Nat.add_mod, Nat.mod_mod_of_dvd _ s.slots_dvd, ← Nat.add_mod]

end Scheme

end PerfectKeys
