import PerfectKeys.Proofs.Magic.Answer
import PerfectKeys.Proofs.Magic.Hash

/-!
# Magic values repeat themselves

A slot has at most eight bits, and the upper half of a product is all it is made from. So
adding 2³² times the number of slots to a magic value changes no slot at all: that is the
period of a scheme. Zero, which searches never try, is no loss either, since it does what
one does.

A range with a whole period in it therefore stands for all magic values. When the search of
such a range is exhausted, no magic value keeps the names apart.
-/

namespace PerfectKeys

namespace Scheme

/-- After this many magic values the slots come again. -/
def period (s : Scheme) : Nat := 4294967296 * s.slots

theorem period_pos (s : Scheme) : 0 < s.period := Nat.mul_pos (by decide) s.slots_pos

theorem period_le (s : Scheme) : s.period ≤ 1099511627776 :=
  Nat.mul_le_mul_left 4294967296 s.slots_le

/-- A whole number of periods adds a whole number of rounds through the slots. -/
theorem upper_add_period_mul (s : Scheme) (folded addend magic rounds : Nat) :
    (folded * (magic + s.period * rounds) / 4294967296 + addend) % s.slots
      = (folded * magic / 4294967296 + addend) % s.slots := by
  have hproduct : folded * (magic + s.period * rounds)
      = folded * magic + 4294967296 * (s.slots * (folded * rounds)) := by
    rw [period, Nat.mul_add, Nat.mul_assoc, Nat.mul_left_comm folded, Nat.mul_left_comm folded]
  rw [hproduct, Nat.add_mul_div_left _ _ (by decide), Nat.add_right_comm, Nat.add_mul_mod_self_left]

/-- The slot under a magic value is the slot under its remainder. -/
theorem slot_eq_mod_period (s : Scheme) (magic : UInt64) (m : Mnemonic) :
    s.slot magic m
      = ((s.digest m).folded.toNat * (magic.toNat % s.period) / 4294967296
          + (s.digest m).addend) % s.slots := by
  rw [slot_eq, ← upper_add_period_mul s _ _ (magic.toNat % s.period) (magic.toNat / s.period),
    Nat.mod_add_div]

/-- **Magic values a whole number of periods apart give every name the same slot.** -/
theorem slot_eq_of_mod_eq {s : Scheme} {a b : UInt64} (h : a.toNat % s.period = b.toNat % s.period)
    (m : Mnemonic) : s.slot a m = s.slot b m := by
  rw [slot_eq_mod_period, h, ← slot_eq_mod_period]

/-- Under zero and under one, nothing of the word is left in the slot. -/
theorem slot_zero_eq_slot_one (s : Scheme) (m : Mnemonic) : s.slot 0 m = s.slot 1 m := by
  rw [slot_eq, slot_eq]
  show ((s.digest m).folded.toNat * 0 / 4294967296 + _) % _
    = ((s.digest m).folded.toNat * 1 / 4294967296 + _) % _
  rw [Nat.mul_zero, Nat.mul_one, Nat.div_eq_of_lt (s.digest m).folded.toNat_lt]

theorem keepsApart_congr {s : Scheme} {names : List CodedName} {a b : UInt64}
    (h : ∀ m, s.slot a m = s.slot b m) : s.KeepsApart names a ↔ s.KeepsApart names b := by
  unfold KeepsApart
  rw [List.map_congr_left fun n _ => h n.name]

end Scheme

/-! ## Ranges that stand for all magic values -/

/-- As many consecutive numbers as the modulus meet every remainder. -/
theorem exists_lt_add_mod_eq (first target : Nat) {modulus : Nat} (h : 0 < modulus) :
    ∃ k, k < modulus ∧ (first + k) % modulus = target % modulus := by
  have hlt := Nat.mod_lt first h
  have hsum : first + (target + (modulus - first % modulus))
      = target + modulus * (first / modulus + 1) := by
    have := Nat.mod_add_div first modulus
    rw [Nat.mul_add, Nat.mul_one]
    omega
  refine ⟨(target + (modulus - first % modulus)) % modulus, Nat.mod_lt _ h, ?_⟩
  rw [Nat.add_mod_mod, hsum, Nat.add_mul_mod_self_left]

namespace SearchSettings

/-- The range holds a period of magic values, or starts at one and lacks only the zero. -/
def Covers (settings : SearchSettings) (s : Scheme) : Prop :=
  s.period ≤ settings.count ∨ settings.start = 1 ∧ s.period - 1 ≤ settings.limit.toNat

/-- A number within the range is a magic value to try. -/
theorem exists_allows (settings : SearchSettings) {n : Nat} (h1 : settings.start.toNat ≤ n)
    (h2 : n ≤ settings.last.toNat) : ∃ magic : UInt64, magic.toNat = n ∧ settings.Allows magic := by
  have hn : (UInt64.ofNat n).toNat = n :=
    UInt64.toNat_ofNat_of_lt' (Nat.lt_of_le_of_lt h2 settings.last.toNat_lt)
  refine ⟨UInt64.ofNat n, hn, ?_⟩
  unfold Allows
  rw [hn, ← toNat_last]
  exact ⟨h1, h2⟩

/-- Whatever a magic value does, some value in a covering range does the same. -/
theorem exists_allows_same_slots {settings : SearchSettings} {s : Scheme} (h : settings.Covers s)
    (magic : UInt64) : ∃ m, settings.Allows m ∧ ∀ n, s.slot m n = s.slot magic n := by
  rcases h with hcount | ⟨hone, hlimit⟩
  · -- a whole period of consecutive values has every remainder
    obtain ⟨k, hk, hmod⟩ := exists_lt_add_mod_eq settings.start.toNat magic.toNat s.period_pos
    have hend := settings.start_add_count
    obtain ⟨m, hm, hallows⟩ := settings.exists_allows
      (n := settings.start.toNat + k) (by omega) (by omega)
    refine ⟨m, hallows, fun n => Scheme.slot_eq_of_mod_eq ?_ n⟩
    rw [hm, hmod]
  · have hstart : settings.start.toNat = 1 := by rw [hone]; rfl
    have hlast := settings.toNat_last
    have hlow := settings.start_le_last
    have hsize : UInt64.size = 18446744073709551616 := rfl
    have hlt := Nat.mod_lt magic.toNat s.period_pos
    have hle := s.period_le
    rcases Nat.eq_zero_or_pos (magic.toNat % s.period) with hzero | hpos
    · -- a multiple of the period does what zero does, and so does one
      obtain ⟨m, hm, hallows⟩ := settings.exists_allows (n := 1) (by omega) (by omega)
      have hm1 : m = 1 := UInt64.toNat_inj.mp hm
      refine ⟨m, hallows, fun n => ?_⟩
      rw [hm1, ← Scheme.slot_zero_eq_slot_one]
      refine Scheme.slot_eq_of_mod_eq ?_ n
      rw [hzero]
      exact Nat.zero_mod _
    · -- every other remainder is itself a value of the range
      obtain ⟨m, hm, hallows⟩ := settings.exists_allows
        (n := magic.toNat % s.period) (by omega) (by omega)
      refine ⟨m, hallows, fun n => Scheme.slot_eq_of_mod_eq ?_ n⟩
      rw [hm, Nat.mod_mod]

end SearchSettings

/--
**An exhausted search of a whole period is conclusive.**

Slots repeat after a period of magic values, and zero does what one does. So a search for
distinct names that fit, over a range that covers a period, is exhausted only if no magic
value at all keeps the names apart; and if any one does, the search finds one.
-/
theorem exhausted_conclusive (scheme : Scheme) :
    (∀ a b : UInt64, a.toNat % scheme.period = b.toNat % scheme.period →
      ∀ m, scheme.slot a m = scheme.slot b m) ∧
    (∀ m, scheme.slot 0 m = scheme.slot 1 m) ∧
    (∀ (names : List CodedName) (settings : SearchSettings), names.length ≤ scheme.slots →
      (∀ i, ¬ scheme.Duplicates (names.map CodedName.given) i) → settings.Covers scheme →
      ((∃ a b, (search scheme (names.map CodedName.given) settings).value
          = .error (.exhausted a b)) ↔ ∀ magic, ¬ scheme.KeepsApart names magic) ∧
      ((∃ t, (search scheme (names.map CodedName.given) settings).value = .ok t
          ∧ scheme.KeepsApart names t.magic) ↔ ∃ magic, scheme.KeepsApart names magic)) := by
  refine ⟨fun a b h => Scheme.slot_eq_of_mod_eq h, scheme.slot_zero_eq_slot_one, ?_⟩
  intro names settings hfit hdistinct hcovers
  rw [exists_exhausted_iff hfit hdistinct, exists_table_iff hfit hdistinct]
  -- a value that keeps the names apart has a stand-in within the range
  have hstandIn : ∀ magic, scheme.KeepsApart names magic →
      ∃ m, settings.Allows m ∧ scheme.KeepsApart names m := by
    intro magic happ
    obtain ⟨m, hm, hslots⟩ := SearchSettings.exists_allows_same_slots hcovers magic
    exact ⟨m, hm, (Scheme.keepsApart_congr hslots).mpr happ⟩
  refine ⟨⟨fun hno magic happ => ?_, fun hno m _ => hno m⟩, ⟨fun h => ?_, fun h => ?_⟩⟩
  · obtain ⟨m, hm, happ⟩ := hstandIn magic happ
    exact hno m hm happ
  · obtain ⟨m, _, happ⟩ := h
    exact ⟨m, happ⟩
  · obtain ⟨magic, happ⟩ := h
    exact hstandIn magic happ

/--
A value close to the largest word keeps two names apart in two slots. It lies far beyond the
first period, and still a search of that period finds a value for them.
-/
theorem exhausted_conclusive_two_slots :
    let scheme : Scheme := ⟨1, false, false⟩
    let names : List CodedName :=
      [⟨⟨[0x44, 0x48], by simp, by decide +kernel⟩, 2⟩,
        ⟨⟨[0x44, 0x53, 0x41], by simp, by decide +kernel⟩, 3⟩]
    let settings := SearchSettings.preset.withLimit 8589934591
    names.map CodedName.given = [("DH", 2), ("DSA", 3)] ∧
      (∀ m, scheme.slot 18446744073709550612 m = scheme.slot 8589933588 m) ∧
      ∃ t, (search scheme (names.map CodedName.given) settings).value = .ok t
        ∧ scheme.KeepsApart names t.magic := by
  intro scheme names settings
  obtain ⟨hslots, -, hsearch⟩ := exhausted_conclusive scheme
  have hdistinct : ∀ i, ¬ scheme.Duplicates (names.map CodedName.given) i :=
    Scheme.firstDuplicate?_eq_none_iff.mp (by decide +kernel)
  refine ⟨by decide +kernel, hslots _ _ (by decide +kernel), ?_⟩
  refine (hsearch names settings (by decide) hdistinct (Or.inr ⟨by decide, by decide⟩)).2.mpr ?_
  exact ⟨18446744073709550612, by decide +kernel⟩

end PerfectKeys
