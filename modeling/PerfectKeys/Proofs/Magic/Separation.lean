import Mathlib.Data.Nat.Find
import Mathlib.Data.Nat.ModEq
import PerfectKeys.Proofs.Magic.Answer
import PerfectKeys.Proofs.Magic.Hash

/-!
# Which names can be told apart

Of a name, a slot depends on two numbers only: the *fold*, which is made of the leading
octets, and the length, where the scheme adds it. Names that agree in both share their slot
under every magic value, so a list with two such names has no table.

The converse is the part that needs an argument. Lengths that differ within the table
already differ under magic value one, where nothing of the fold is left in the slot. If
they do not, the folds have to differ. While the magic value grows from zero to 2³², the
upper half of its product with a fold grows in steps of at most one, from zero to the fold
itself. The larger fold ends further up, so at some magic value it is ahead for the first
time, and then by exactly one: two different slots, as soon as there are two.
-/

namespace PerfectKeys

/-- The lower half of a word, with the upper half folded onto it. -/
def foldHalves (word : UInt64) : UInt32 := ((word >>> 32) ^^^ word).toUInt32

theorem toNat_foldHalves (word : UInt64) :
    (foldHalves word).toNat = word.toNat / 4294967296 ^^^ word.toNat % 4294967296 := by
  have hlt := word.toNat_lt
  unfold foldHalves
  rw [UInt64.toNat_toUInt32, UInt64.toNat_xor, UInt64.toNat_shiftRight]
  show (word.toNat >>> 32 ^^^ word.toNat) % 2 ^ 32 = _
  rw [Nat.xor_mod_two_pow, Nat.shiftRight_eq_div_pow]
  show word.toNat / 4294967296 % 4294967296 ^^^ word.toNat % 4294967296 = _
  rw [Nat.mod_eq_of_lt (a := word.toNat / 4294967296) (by omega)]

namespace Scheme

/-- The leading octets as a number, with its upper half folded onto the lower. -/
def fold (s : Scheme) (m : Mnemonic) : Nat :=
  let word := (leading (if s.foldsCase then m.octets.map Octet.clearCaseBit else m.octets)).toNat
  (word / 4294967296) ^^^ (word % 4294967296)

/-- The names have different folds, or lengths that differ within the table and count. -/
def TellsApart (s : Scheme) (a b : Mnemonic) : Prop :=
  s.fold a ≠ s.fold b ∨ s.addsLength = true ∧ a.length % s.slots ≠ b.length % s.slots

instance (s : Scheme) (a b : Mnemonic) : Decidable (s.TellsApart a b) :=
  inferInstanceAs (Decidable
    (s.fold a ≠ s.fold b ∨ s.addsLength = true ∧ a.length % s.slots ≠ b.length % s.slots))

theorem folded_eq_foldHalves (s : Scheme) (m : Mnemonic) :
    (s.digest m).folded = foldHalves (s.word m) := rfl

theorem toNat_folded (s : Scheme) (m : Mnemonic) : (s.digest m).folded.toNat = s.fold m := by
  rw [folded_eq_foldHalves, toNat_foldHalves, fold, ← word_eq_leading]

theorem fold_lt (s : Scheme) (m : Mnemonic) : s.fold m < 4294967296 := by
  rw [← toNat_folded]
  exact (s.digest m).folded.toNat_lt

theorem slot_eq_fold (s : Scheme) (magic : UInt64) (m : Mnemonic) :
    s.slot magic m
      = (s.fold m * magic.toNat / 4294967296 + (s.digest m).addend) % s.slots := by
  rw [slot_eq, toNat_folded]

/-- Where the length counts, it has to be the same within the table. -/
theorem addend_mod_eq_iff {s : Scheme} {a b : Mnemonic} :
    (s.digest a).addend % s.slots = (s.digest b).addend % s.slots ↔
      (s.addsLength = true → a.length % s.slots = b.length % s.slots) := by
  unfold digest
  dsimp only
  cases s.addsLength with
  | false => simp
  | true => simp

/-- **Names that are not told apart share their slot under every magic value.** -/
theorem slot_eq_of_not_tellsApart {s : Scheme} {a b : Mnemonic} (h : ¬ s.TellsApart a b)
    (magic : UInt64) : s.slot magic a = s.slot magic b := by
  unfold TellsApart at h
  push Not at h
  obtain ⟨hfold, hlength⟩ := h
  have haddend := addend_mod_eq_iff.mpr hlength
  rw [slot_eq_fold, slot_eq_fold, hfold, Nat.add_mod, haddend, ← Nat.add_mod]

end Scheme

/-! ## A magic value for two names -/

/-- Of two numbers below a unit, some multiple of the larger one gets ahead by one unit. -/
theorem exists_quotient_succ {small large unit : Nat} (hlt : small < large) (hle : large ≤ unit) :
    ∃ m, 1 ≤ m ∧ m ≤ unit ∧ large * m / unit = small * m / unit + 1 := by
  have hpos : 0 < unit := by omega
  have hend : small * unit / unit < large * unit / unit := by
    rw [Nat.mul_div_cancel _ hpos, Nat.mul_div_cancel _ hpos]
    exact hlt
  have hex : ∃ m, small * m / unit < large * m / unit := ⟨unit, hend⟩
  -- the first multiplier that puts the larger one ahead
  have hfirst := Nat.find_spec hex
  have hle_unit : Nat.find hex ≤ unit := Nat.find_min' hex hend
  obtain ⟨k, hk⟩ : ∃ k, Nat.find hex = k + 1 := by
    refine Nat.exists_eq_succ_of_ne_zero fun hzero => ?_
    rw [hzero] at hfirst
    simp at hfirst
  have hbefore : large * k / unit ≤ small * k / unit := by
    have := Nat.find_min hex (m := k) (by omega)
    omega
  rw [hk] at hfirst hle_unit
  refine ⟨k + 1, by omega, hle_unit, Nat.le_antisymm ?_ hfirst⟩
  have hstep : large * (k + 1) / unit ≤ large * k / unit + 1 := by
    rw [← Nat.add_div_right _ hpos, Nat.mul_succ]
    exact Nat.div_le_div_right (by omega)
  have hmono : small * k / unit ≤ small * (k + 1) / unit :=
    Nat.div_le_div_right (Nat.mul_le_mul_left _ (Nat.le_succ k))
  omega

/-- Addends that agree within a table of two or more slots do not hide a step of one. -/
theorem add_mod_ne_of_succ {slots x y q : Nat} (hslots : 2 ≤ slots) (hxy : x % slots = y % slots) :
    (q + x) % slots ≠ (q + 1 + y) % slots := by
  intro heq
  have hcancel : x ≡ 1 + y [MOD slots] := by
    rw [Nat.add_assoc] at heq
    exact Nat.ModEq.add_left_cancel' q heq
  have hstep : 0 + y ≡ 1 + y [MOD slots] := by
    rw [Nat.zero_add]
    exact Nat.ModEq.trans (Eq.symm hxy) hcancel
  have hone : 0 % slots = 1 % slots := Nat.ModEq.add_right_cancel' y hstep
  rw [Nat.zero_mod, Nat.mod_eq_of_lt (by omega)] at hone
  omega

namespace Scheme

section Pairs

variable {s : Scheme} {a b : Mnemonic}

theorem exists_slot_ne_of_fold_lt (hslots : 2 ≤ s.slots)
    (haddend : (s.digest a).addend % s.slots = (s.digest b).addend % s.slots)
    (hfold : s.fold a < s.fold b) :
    ∃ magic : UInt64, 1 ≤ magic.toNat ∧ magic.toNat ≤ 4294967296 ∧
      s.slot magic a ≠ s.slot magic b := by
  obtain ⟨m, h1, hm, hahead⟩ := exists_quotient_succ hfold (Nat.le_of_lt (s.fold_lt b))
  have htoNat : (UInt64.ofNat m).toNat = m :=
    UInt64.toNat_ofNat_of_lt' (Nat.lt_of_le_of_lt hm (by decide))
  refine ⟨UInt64.ofNat m, by omega, by omega, ?_⟩
  rw [slot_eq_fold, slot_eq_fold, htoNat, hahead]
  exact add_mod_ne_of_succ hslots haddend

/-- **Names that are told apart have different slots under one of the first 2³² magic values.** -/
theorem exists_slot_ne (hslots : 2 ≤ s.slots) (h : s.TellsApart a b) :
    ∃ magic : UInt64, 1 ≤ magic.toNat ∧ magic.toNat ≤ 4294967296 ∧
      s.slot magic a ≠ s.slot magic b := by
  by_cases haddend : (s.digest a).addend % s.slots = (s.digest b).addend % s.slots
  · -- the lengths do not help, so the folds differ
    have hfold : s.fold a ≠ s.fold b := by
      rcases h with hfold | ⟨hadds, hlength⟩
      · exact hfold
      · exact absurd (addend_mod_eq_iff.mp haddend hadds) hlength
    rcases Nat.lt_or_gt_of_ne hfold with hlt | hlt
    · exact exists_slot_ne_of_fold_lt hslots haddend hlt
    · obtain ⟨magic, h1, hm, hne⟩ := exists_slot_ne_of_fold_lt hslots haddend.symm hlt
      exact ⟨magic, h1, hm, hne.symm⟩
  · refine ⟨1, by decide, by decide, ?_⟩
    have hnone (m : Mnemonic) : s.fold m * (1 : UInt64).toNat / 4294967296 = 0 := by
      show s.fold m * 1 / 4294967296 = 0
      rw [Nat.mul_one, Nat.div_eq_of_lt (s.fold_lt m)]
    rw [slot_eq_fold, slot_eq_fold, hnone, hnone, Nat.zero_add, Nat.zero_add]
    exact haddend

end Pairs

end Scheme

/-! ## Searches for names that may not be told apart -/

theorem keepsApart_pair_iff {s : Scheme} {a b : CodedName} {magic : UInt64} :
    s.KeepsApart [a, b] magic ↔ s.slot magic a.name ≠ s.slot magic b.name := by
  unfold Scheme.KeepsApart
  simp

theorem not_duplicates_pair {s : Scheme} {a b : CodedName}
    (h : ¬ s.Equates a.name.text b.name.text) (i : Nat) :
    ¬ s.Duplicates ([a, b].map CodedName.given) i := by
  intro hdup
  obtain ⟨j, p, q, hji, hp, hq, heq⟩ := hdup
  have hi : i < 2 := (List.getElem?_eq_some_iff.mp hq).1
  obtain ⟨rfl, rfl⟩ : j = 0 ∧ i = 1 := by omega
  cases hp
  cases hq
  exact h heq

theorem not_table_of_not_tellsApart {s : Scheme} {texts : List (String × UInt16)}
    {settings : SearchSettings} {i j : Nat} {a b : CodedName} (hij : i ≠ j)
    (ha : texts[i]? = some a.given) (hb : texts[j]? = some b.given)
    (h : ¬ s.TellsApart a.name b.name) (t : MagicTable) :
    (search s texts settings).value ≠ .ok t := by
  intro hsearch
  obtain ⟨names, rfl, -, -, -, hmagic⟩ := exists_names_of_search hsearch
  have hname {k : Nat} {c : CodedName} (hc : (names.map CodedName.given)[k]? = some c.given) :
      ∃ n, names[k]? = some n ∧ n.name = c.name := by
    rw [List.getElem?_map] at hc
    obtain ⟨n, hn, hgiven⟩ := Option.map_eq_some_iff.mp hc
    exact ⟨n, hn, Mnemonic.text_inj.mp (Prod.mk.inj hgiven).1⟩
  obtain ⟨na, hna, hea⟩ := hname ha
  obtain ⟨nb, hnb, heb⟩ := hname hb
  -- the table has different slots at different positions
  refine hij (index_eq_of_nodup_map hmagic.1.2 hna hnb ?_)
  rw [hea, heb]
  exact Scheme.slot_eq_of_not_tellsApart h t.magic

/--
**Which names a search can tell apart.**

Over two or more slots, the search for two names that do not count as the same finds a table
when their folds differ, or their lengths do within the table and are added; else it exhausts
its range. A list of any size with two names that are not told apart has no table in any range.
-/
theorem search_tells_apart (scheme : Scheme) :
    (2 ≤ scheme.slots → ∀ a b : CodedName, ¬ scheme.Equates a.name.text b.name.text →
      ((∃ t, (search scheme [a.given, b.given] .preset).value = .ok t) ↔
        scheme.TellsApart a.name b.name) ∧
      (¬ scheme.TellsApart a.name b.name →
        (search scheme [a.given, b.given] .preset).value = .error (.exhausted 1 4294967296))) ∧
    (∀ (texts : List (String × UInt16)) (settings : SearchSettings) (i j : Nat) (a b : CodedName),
      i ≠ j → texts[i]? = some a.given → texts[j]? = some b.given →
      ¬ scheme.TellsApart a.name b.name → ∀ t, (search scheme texts settings).value ≠ .ok t) := by
  refine ⟨?_, fun texts settings i j a b hij ha hb h t => not_table_of_not_tellsApart hij ha hb h t⟩
  intro hslots a b hne
  have hfit : [a, b].length ≤ scheme.slots := hslots
  have hdistinct := not_duplicates_pair hne
  refine ⟨⟨fun htable => ?_, fun h => ?_⟩, fun h => ?_⟩
  · by_contra h
    obtain ⟨t, ht⟩ := htable
    exact not_table_of_not_tellsApart (Nat.zero_ne_one) rfl rfl h t ht
  · obtain ⟨magic, h1, hm, hslot⟩ := Scheme.exists_slot_ne hslots h
    have hallows : SearchSettings.preset.Allows magic := ⟨h1, hm⟩
    obtain ⟨t, ht, -⟩ := (exists_table_iff hfit hdistinct).mpr
      ⟨magic, hallows, keepsApart_pair_iff.mpr hslot⟩
    exact ⟨t, ht⟩
  · have hnone (m : UInt64) (_ : SearchSettings.preset.Allows m) :
        ¬ scheme.KeepsApart [a, b] m := by
      rw [keepsApart_pair_iff, not_not]
      exact Scheme.slot_eq_of_not_tellsApart h m
    exact (Answers.exhausted hfit hdistinct hnone SearchSettings.preset.toNat_last).value_eq

/-- Two services that share their fold are told apart by their lengths, and by nothing else. -/
theorem search_tells_apart_submissions :
    let a : CodedName := ⟨⟨octetsOf "submission", by decide +kernel, by decide +kernel⟩, 587⟩
    let b : CodedName := ⟨⟨octetsOf "submissions", by decide +kernel, by decide +kernel⟩, 465⟩
    let scheme : Scheme := ⟨6, true, false⟩
    (∃ t, (search scheme.withLength [a.given, b.given] .preset).value = .ok t) ∧
      (search scheme [a.given, b.given] .preset).value
        = .error (.exhausted 1 4294967296) ∧
      ∀ t, (search scheme [a.given, ("https", 443), b.given]
        (SearchSettings.preset.withStart 98112)).value ≠ .ok t := by
  intro a b scheme
  have hne : ¬ scheme.withLength.Equates a.name.text b.name.text := by decide +kernel
  have halike : ¬ scheme.TellsApart a.name b.name := by decide +kernel
  refine ⟨?_, ?_, ?_⟩
  · obtain ⟨htable, -⟩ := (search_tells_apart scheme.withLength).1 (by decide) a b hne
    exact htable.mpr (by decide +kernel)
  · exact ((search_tells_apart scheme).1 (by decide) a b hne).2 halike
  · exact (search_tells_apart scheme).2 _ _ 0 2 a b (by decide) rfl rfl halike

end PerfectKeys
