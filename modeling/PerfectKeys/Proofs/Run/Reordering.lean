import PerfectKeys.Proofs.Rearrangement
import PerfectKeys.Proofs.Run.Renderings

/-!
# The order of a run decides its flags only

Of several mnemonics with one key, the first is accepted and the others are collisions. Which of
them comes first depends on the order of the run, and nothing else does. In any order the same
mnemonics get the same keys, each key is accepted once, and it is a collision as often as it
comes again. So reports of the same mnemonics agree on everything but which of the entries with
a shared key has no flag.

There are 8192 cells, so of a longer run all entries but 8192 are collisions at least.
-/

namespace PerfectKeys

namespace Report

/-- The report has the entries of another one in a different order: what comes to a position is
told by the permutation. Entries with a shared key may have exchanged their flags. -/
structure Rearranged {n : Nat} (σ : Equiv.Perm (Fin n)) (r r' : Report) : Prop where
  /-- Both reports have an entry for each position. -/
  length_eq : r.length = n ∧ r'.length = n
  collisionCount_eq : r'.collisionCount = r.collisionCount
  isPerfect_eq : r'.isPerfect = r.isPerfect
  /-- The same keys are accepted. -/
  keys_accepted_perm : (r'.accepted.map fun e => e.key).Perm (r.accepted.map fun e => e.key)
  /-- The collisions have the same keys, each as often. -/
  keys_collisions_perm : (r'.collisions.map fun e => e.key).Perm (r.collisions.map fun e => e.key)
  /-- But for the flags, the entries are the same. -/
  entries_perm : (r'.entries.map fun e => (e.role, e.mnemonic, e.key)).Perm
    (r.entries.map fun e => (e.role, e.mnemonic, e.key))
  /-- The flag of an entry is another one only where its key is shared. -/
  entry_eq : ∀ i : Fin n, ∃ e e', r.entries[(σ i).val]? = some e ∧ r'.entries[i.val]? = some e' ∧
    (e' = e ∨ e' = { e with collision := !e.collision } ∧
      2 ≤ (r.entries.map fun e => e.key).count e.key)

/-! ## Reports with the same keys -/

section SameKeys

variable {r r' : Report}

theorem keys_accepted_perm (h : r.Flagged) (h' : r'.Flagged)
    (hkeys : (r'.entries.map fun e => e.key).Perm (r.entries.map fun e => e.key)) :
    (r'.accepted.map fun e => e.key).Perm (r.accepted.map fun e => e.key) := by
  rw [List.perm_ext_iff_of_nodup (nodup_accepted h') (nodup_accepted h)]
  intro k
  rw [mem_keys_accepted_iff h', mem_keys_accepted_iff h, hkeys.mem_iff]

theorem keys_collisions_perm (h : r.Flagged) (h' : r'.Flagged)
    (hkeys : (r'.entries.map fun e => e.key).Perm (r.entries.map fun e => e.key)) :
    (r'.collisions.map fun e => e.key).Perm (r.collisions.map fun e => e.key) := by
  have hsplit (r : Report) : ((r.collisions.map fun e => e.key)
      ++ r.accepted.map fun e => e.key).Perm (r.entries.map fun e => e.key) := by
    rw [← List.map_append]
    exact r.collisions_append_accepted_perm.map _
  -- the keys are those of the collisions and the accepted ones, and the latter cancel
  have haccepted := (keys_accepted_perm h h' hkeys).symm
  refine (List.perm_append_right_iff (r.accepted.map fun e => e.key)).mp ?_
  exact ((haccepted.append_left _).trans (hsplit r')).trans (hkeys.trans (hsplit r).symm)

theorem collisionCount_eq_of_perm (h : r.Flagged) (h' : r'.Flagged)
    (hkeys : (r'.entries.map fun e => e.key).Perm (r.entries.map fun e => e.key)) :
    r'.collisionCount = r.collisionCount := by
  have hlength := (keys_collisions_perm h h' hkeys).length_eq
  rwa [List.length_map, List.length_map] at hlength

theorem isPerfect_eq_of_perm (h : r.Flagged) (h' : r'.Flagged)
    (hkeys : (r'.entries.map fun e => e.key).Perm (r.entries.map fun e => e.key)) :
    r'.isPerfect = r.isPerfect := by
  rw [Bool.eq_iff_iff, isPerfect_iff h', isPerfect_iff h, hkeys.nodup_iff]

/-- Entries with one key have one flag, unless the key is shared. -/
theorem collision_eq_or_two_le_count (h : r.Flagged) (h' : r'.Flagged)
    (hkeys : (r'.entries.map fun e => e.key).Perm (r.entries.map fun e => e.key)) {i j : Nat}
    {e e' : Entry} (he : r.entries[i]? = some e) (he' : r'.entries[j]? = some e')
    (hkey : e'.key = e.key) :
    e'.collision = e.collision ∨
      e'.collision = !e.collision ∧ 2 ≤ (r.entries.map fun e => e.key).count e.key := by
  -- if one of them is flagged, it repeats an earlier entry of its own report
  cases hc : e.collision with
  | true =>
      have hcount := two_le_count_of_repeatsAt he ((h i e he).mp hc)
      cases e'.collision with
      | true => exact Or.inl rfl
      | false => exact Or.inr ⟨rfl, hcount⟩
  | false =>
      cases hc' : e'.collision with
      | true =>
          have hcount := two_le_count_of_repeatsAt he' ((h' j e' he').mp hc')
          rw [hkeys.count_eq, hkey] at hcount
          exact Or.inr ⟨rfl, hcount⟩
      | false => exact Or.inl rfl

/-- A key can be accepted for each cell only. -/
theorem length_le_collisionCount_add (h : r.Flagged) : r.length ≤ r.collisionCount + 8192 := by
  rw [← collisionCount_add_card h]
  exact Nat.add_le_add_left (Key.card_le _) _

end SameKeys

end Report

/-! ## Runs over the same mnemonics -/

theorem flagged_reportOf (pairs : List (Role × Mnemonic)) : (reportOf pairs).Flagged :=
  (consistent_pushAll pairs).collision_iff

/-- But for the flags, an entry is determined by its mnemonic alone. -/
theorem map_facts_reportOf (pairs : List (Role × Mnemonic)) :
    ((reportOf pairs).entries.map fun e => (e.role, e.mnemonic, e.key))
      = pairs.map fun p => (p.1, p.2, Key.of p.2) := by
  have hkey : ∀ e ∈ (reportOf pairs).entries, e.key = Key.of e.mnemonic :=
    (consistent_pushAll pairs).key_eq
  conv => rhs; rw [← map_entries_reportOf pairs]
  rw [List.map_map]
  exact List.map_congr_left fun e he => by rw [hkey e he]; rfl

theorem exists_getElem?_reportOf {pairs : List (Role × Mnemonic)} {i : Nat} {p : Role × Mnemonic}
    (hp : pairs[i]? = some p) : ∃ e, (reportOf pairs).entries[i]? = some e ∧
      e.role = p.1 ∧ e.mnemonic = p.2 ∧ e.key = Key.of p.2 := by
  have hfacts : ((reportOf pairs).entries.map fun e => (e.role, e.mnemonic, e.key))[i]?
      = (pairs.map fun p => (p.1, p.2, Key.of p.2))[i]? := by rw [map_facts_reportOf]
  rw [List.getElem?_map, List.getElem?_map, hp] at hfacts
  obtain ⟨e, he, hparts⟩ := Option.map_eq_some_iff.mp hfacts
  obtain ⟨hrole, hrest⟩ := Prod.mk.inj hparts
  obtain ⟨hmnemonic, hkey⟩ := Prod.mk.inj hrest
  exact ⟨e, he, hrole, hmnemonic, hkey⟩

theorem length_reportOf (pairs : List (Role × Mnemonic)) :
    (reportOf pairs).length = pairs.length := by
  have hlength := congrArg List.length (map_entries_reportOf pairs)
  rwa [List.length_map] at hlength

theorem facts_reportOf_perm {pairs pairs' : List (Role × Mnemonic)} (h : pairs'.Perm pairs) :
    ((reportOf pairs').entries.map fun e => (e.role, e.mnemonic, e.key)).Perm
      ((reportOf pairs).entries.map fun e => (e.role, e.mnemonic, e.key)) := by
  rw [map_facts_reportOf, map_facts_reportOf]
  exact h.map _

theorem keys_reportOf_perm {pairs pairs' : List (Role × Mnemonic)} (h : pairs'.Perm pairs) :
    ((reportOf pairs').entries.map fun e => e.key).Perm
      ((reportOf pairs).entries.map fun e => e.key) := by
  have hkeys := (facts_reportOf_perm h).map fun facts => facts.2.2
  rwa [List.map_map, List.map_map] at hkeys

/-- What comes to a position is the entry that was moved there, but perhaps for its flag. -/
theorem entry_eq_reportOf (pairs : List (Role × Mnemonic)) (σ : Equiv.Perm (Fin pairs.length))
    (i : Fin pairs.length) : ∃ e e', (reportOf pairs).entries[(σ i).val]? = some e ∧
      (reportOf (rearrange pairs σ)).entries[i.val]? = some e' ∧
      (e' = e ∨ e' = { e with collision := !e.collision } ∧
        2 ≤ ((reportOf pairs).entries.map fun e => e.key).count e.key) := by
  have hp : pairs[(σ i).val]? = some pairs[(σ i).val] := List.getElem?_eq_getElem (σ i).isLt
  obtain ⟨e, he, hrole, hmnemonic, hkey⟩ := exists_getElem?_reportOf hp
  obtain ⟨e', he', hrole', hmnemonic', hkey'⟩ :=
    exists_getElem?_reportOf ((getElem?_rearrange pairs σ i).trans hp)
  have hsame (flag : Bool) (hflag : e'.collision = flag) : e' = { e with collision := flag } :=
    Entry.eq_of_parts (hrole'.trans hrole.symm) (hmnemonic'.trans hmnemonic.symm)
      (hkey'.trans hkey.symm) hflag
  refine ⟨e, e', he, he', ?_⟩
  rcases Report.collision_eq_or_two_le_count (flagged_reportOf pairs) (flagged_reportOf _)
    (keys_reportOf_perm (perm_rearrange pairs σ)) he he' (hkey'.trans hkey.symm)
    with hflag | ⟨hflag, hcount⟩
  · exact Or.inl (hsame e.collision hflag)
  · exact Or.inr ⟨hsame _ hflag, hcount⟩

theorem rearranged_reportOf (pairs : List (Role × Mnemonic)) (σ : Equiv.Perm (Fin pairs.length)) :
    (reportOf pairs).Rearranged σ (reportOf (rearrange pairs σ)) := by
  have hperm : (rearrange pairs σ).Perm pairs := perm_rearrange pairs σ
  have h := flagged_reportOf pairs
  have h' := flagged_reportOf (rearrange pairs σ)
  have hkeys := keys_reportOf_perm hperm
  exact {
    length_eq := ⟨length_reportOf pairs, (length_reportOf _).trans hperm.length_eq⟩
    collisionCount_eq := Report.collisionCount_eq_of_perm h h' hkeys
    isPerfect_eq := Report.isPerfect_eq_of_perm h h' hkeys
    keys_accepted_perm := Report.keys_accepted_perm h h' hkeys
    keys_collisions_perm := Report.keys_collisions_perm h h' hkeys
    entries_perm := facts_reportOf_perm hperm
    entry_eq := entry_eq_reportOf pairs σ }

/--
**The order of a run decides its flags only.**

The reports of two runs over the same mnemonics, under the same roles and in any order, have
the same entries but for flags of shared keys, and with them the same length, number of
collisions, keys accepted and keys refused. In the report of any run, all entries but 8192 are
collisions.
-/
theorem run_rearrange :
    (∀ (pairs : List (Role × Mnemonic)) (σ : Equiv.Perm (Fin pairs.length)),
      (reportOf pairs).Rearranged σ (reportOf (rearrange pairs σ))) ∧
    ∀ ops : List Operation,
      let r := (Run.start.performAll ops).value.finish.value
      r.length ≤ r.collisionCount + 8192 := by
  refine ⟨rearranged_reportOf, fun ops => ?_⟩
  exact Report.length_le_collisionCount_add (consistent_performAll ops).collision_iff

end PerfectKeys
