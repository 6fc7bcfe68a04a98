import PerfectKeys.Proofs.Magic.Rejection

/-!
# Fewer names and more slots make a search easier

A magic value that keeps names apart also keeps apart any of them that are left when others are
taken away. And it keeps them apart in a larger table of the same kind, because the slot in the
smaller table is the slot in the larger one, reduced: names that met in the larger table would
meet in the smaller one as well.

So whatever a search finds for the names is good for the easier search, which therefore finds
that value or a smaller one. It may well be a smaller one, so tables are not kept.
-/

namespace PerfectKeys

namespace Scheme

theorem keepsApart_of_sublist {s : Scheme} {names fewer : List CodedName} {magic : UInt64}
    (hsub : fewer.Sublist names) (h : s.KeepsApart names magic) : s.KeepsApart fewer magic :=
  h.sublist (hsub.map _)

/-- Numbers of slots are powers of two, so a larger one is a multiple. -/
theorem slots_dvd_of_le {s larger : Scheme} (h : s.slots ≤ larger.slots) :
    s.slots ∣ larger.slots :=
  Nat.pow_dvd_pow 2 ((Nat.pow_le_pow_iff_right (by decide)).mp h)

/-- The schemes read the same off a name. -/
structure SameFlags (s s' : Scheme) : Prop where
  foldsCase_eq : s'.foldsCase = s.foldsCase
  addsLength_eq : s'.addsLength = s.addsLength

section Widths

variable {s larger : Scheme}

theorem digest_eq_of_sameFlags (h : s.SameFlags larger) (m : Mnemonic) :
    larger.digest m = s.digest m := by
  unfold digest word
  rw [h.foldsCase_eq, h.addsLength_eq]

/-- **The slot in a smaller table is the slot in a larger one, reduced.** -/
theorem slot_mod_slots (h : s.SameFlags larger) (hslots : s.slots ≤ larger.slots)
    (magic : UInt64) (m : Mnemonic) : larger.slot magic m % s.slots = s.slot magic m := by
  rw [slot_eq, slot_eq, digest_eq_of_sameFlags h]
  exact Nat.mod_mod_of_dvd _ (slots_dvd_of_le hslots)

theorem keepsApart_of_slots_le (h : s.SameFlags larger) (hslots : s.slots ≤ larger.slots)
    {names : List CodedName} {magic : UInt64} (happ : s.KeepsApart names magic) :
    larger.KeepsApart names magic := by
  have hreduced : (names.map fun n => larger.slot magic n.name).map (· % s.slots)
      = names.map fun n => s.slot magic n.name := by
    rw [List.map_map]
    exact List.map_congr_left fun n _ => slot_mod_slots h hslots magic n.name
  refine List.Nodup.of_map (· % s.slots) ?_
  rw [hreduced]
  exact happ

end Widths

end Scheme

/-- A search finds a table by the time it comes to a magic value that keeps the names apart. -/
theorem exists_table_le {scheme : Scheme} {names : List CodedName} {settings : SearchSettings}
    {magic : UInt64} (hallows : settings.Allows magic) (happ : scheme.KeepsApart names magic) :
    ∃ t, (search scheme (names.map CodedName.given) settings).value = .ok t ∧ t.magic ≤ magic := by
  rcases value_search_of_keepsApart happ with ⟨t, ht, hleast⟩ | ⟨-, hnone⟩
  · exact ⟨t, ht, hleast.2 ⟨hallows, happ⟩⟩
  · exact absurd happ (hnone magic hallows)

/--
**Fewer names or more slots: a search that succeeds goes on to succeed, no later than before.**

Where a search finds a table, the same search finds one, with a magic value that is no larger,
for any sublist of the names, and under any scheme that has the same flags and no fewer slots.
-/
theorem search_mono {scheme : Scheme} {texts : List (String × UInt16)} {settings : SearchSettings}
    {t : MagicTable} (h : (search scheme texts settings).value = .ok t) :
    (∀ fewer : List (String × UInt16), fewer.Sublist texts →
      ∃ t', (search scheme fewer settings).value = .ok t' ∧ t'.magic ≤ t.magic) ∧
    (∀ larger : Scheme, scheme.SameFlags larger → scheme.slots ≤ larger.slots →
      ∃ t', (search larger texts settings).value = .ok t' ∧ t'.magic ≤ t.magic) := by
  obtain ⟨names, rfl, -, -, -, hleast⟩ := exists_names_of_search h
  obtain ⟨hallows, happ⟩ := hleast.1
  refine ⟨fun fewer hsub => ?_, fun larger hflags hslots => ?_⟩
  · obtain ⟨left, hleft, rfl⟩ := List.sublist_map_iff.mp hsub
    exact exists_table_le hallows (Scheme.keepsApart_of_sublist hleft happ)
  · exact exists_table_le hallows (Scheme.keepsApart_of_slots_le hflags hslots happ)

/-- Four algorithms fill a table of four slots under magic value nine. Two of them, or sixteen
slots, need no larger value. -/
theorem search_mono_algorithms :
    let scheme : Scheme := ⟨2, false, false⟩
    let texts := [("RSASHA256", 8), ("RSAMD5", 1), ("INDIRECT", 252), ("ECC-GOST", 12)]
    ∃ t, (search scheme texts .preset).value = .ok t ∧ t.magic = 9 ∧
      (∃ t', (search scheme [("RSAMD5", 1), ("ECC-GOST", 12)] .preset).value = .ok t' ∧
        t'.magic ≤ t.magic) ∧
      ∃ t', (search ⟨4, false, false⟩ texts .preset).value = .ok t' ∧ t'.magic ≤ t.magic := by
  intro scheme texts
  have hmagic : (search scheme texts .preset).value.toOption.map MagicTable.magic = some 9 := by
    decide +kernel
  cases h : (search scheme texts .preset).value with
  | error e =>
      rw [h] at hmagic
      cases hmagic
  | ok t =>
      rw [h] at hmagic
      obtain ⟨hfewer, hlarger⟩ := search_mono h
      refine ⟨t, rfl, Option.some.inj hmagic, hfewer _ (by decide), ?_⟩
      exact hlarger ⟨4, false, false⟩ ⟨rfl, rfl⟩ (by decide)

end PerfectKeys
