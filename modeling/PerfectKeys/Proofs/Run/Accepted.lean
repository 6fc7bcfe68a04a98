import PerfectKeys.Proofs.Run.Composition

/-!
# What a report accepts is a perfect table

The entries of a report that are no collisions can be put into a table by themselves. A run that
is given only their mnemonics takes other cells at other times than the run they come from, yet
it enters each of them just as it was, and no other mnemonic of the report could be added to
them.

Neither needs a look at the cells. Flags are determined by the keys in front of them, so a list
of entries that is flagged in the right way is the report of its own mnemonics. Accepted entries
are such a list, since their keys are different, and so they are with one collision behind them.
-/

namespace PerfectKeys

namespace Report

variable {r : Report}

/-- Keys alone decide which positions repeat earlier ones. -/
theorem repeatsAt_key_congr {l l' : List Entry}
    (h : (l.map fun e => e.key) = l'.map fun e => e.key) (i : Nat) :
    RepeatsAt (fun e => e.key) l i ↔ RepeatsAt (fun e => e.key) l' i := by
  have hkeys (l : List Entry) :
      RepeatsAt id (l.map fun e => e.key) i ↔ RepeatsAt (fun e => e.key) l i := repeatsAt_map_iff
  rw [← hkeys l, ← hkeys l', h]

/-- **A report is the only one that its mnemonics can have.** -/
theorem reportOf_eq_of_flagged (hkey : ∀ e ∈ r.entries, e.key = Key.of e.mnemonic)
    (hflag : r.Flagged) : reportOf (r.entries.map fun e => (e.role, e.mnemonic)) = r := by
  have hkeys : ((reportOf (r.entries.map fun e => (e.role, e.mnemonic))).entries.map
      fun e => e.key) = r.entries.map fun e => e.key := by
    rw [map_key_reportOf, keysOf, List.map_map]
    exact List.map_congr_left fun e he => (hkey e he).symm
  -- position by position: the new run finds the key again, and the keys decide the flag
  refine eq_of_entries_eq (List.ext_getElem? fun i => ?_)
  cases he : r.entries[i]? with
  | none =>
      have hlength := length_reportOf (r.entries.map fun e => (e.role, e.mnemonic))
      rw [List.length_map] at hlength
      rw [List.getElem?_eq_none_iff] at he ⊢
      exact hlength.trans_le he
  | some e =>
      have hp : (r.entries.map fun e => (e.role, e.mnemonic))[i]? = some (e.role, e.mnemonic) := by
        rw [List.getElem?_map, he]
        rfl
      obtain ⟨e', he', hrole, hmnemonic, hkey'⟩ := exists_getElem?_reportOf hp
      have hsame : e'.key = e.key := hkey'.trans (hkey e (List.mem_of_getElem? he)).symm
      have hcollision : e'.collision = e.collision := by
        rw [Bool.eq_iff_iff, hflag i e he, flagged_reportOf _ i e' he', repeatsAt_key_congr hkeys]
      rw [he', Entry.eq_of_parts hrole hmnemonic hsame hcollision]

/-- No accepted entry repeats another, as its flag says. -/
theorem flagged_accepted (h : r.Flagged) : (mk r.accepted).Flagged := by
  intro i e he
  have hfree : e.collision = false := by
    have hmem := (List.mem_filter.mp (List.mem_of_getElem? he)).2
    rwa [Bool.not_eq_eq_eq_not, Bool.not_true] at hmem
  rw [hfree]
  exact iff_of_false Bool.false_ne_true (nodup_map_iff_not_repeatsAt.mp (nodup_accepted h) i)

/-- Behind the accepted entries, a collision is one again. -/
theorem flagged_accepted_append (h : r.Flagged) {e : Entry} (he : e ∈ r.collisions) :
    (mk (r.accepted ++ [e])).Flagged := by
  obtain ⟨hmem, hcollision⟩ := List.mem_filter.mp he
  -- the entry that was first to the key is among the accepted ones
  have hkey : e.key ∈ r.accepted.map fun e => e.key :=
    (mem_keys_accepted_iff h).mpr (List.mem_map.mpr ⟨e, hmem, rfl⟩)
  exact flagged_append (flagged_accepted h) (iff_of_true hcollision (List.mem_map.mp hkey))

/-- Nothing among the accepted entries is flagged. -/
theorem isPerfect_accepted (r : Report) : (mk r.accepted).isPerfect = true := by
  unfold isPerfect collisions accepted
  rw [List.isEmpty_iff, List.filter_filter, List.filter_eq_nil_iff]
  intro e _ hboth
  rw [Bool.and_eq_true, Bool.not_eq_true'] at hboth
  exact Bool.false_ne_true (hboth.2.symm.trans hboth.1)

end Report

/--
**What a report accepts is a perfect table, and as large a one as can be.**

Whatever was asked of a run, a new run over the mnemonics that it accepted, in their order and
with their roles, enters each of them as it was, and none as a collision, so no two of them have
the same key. If a mnemonic that was a collision is added to that run, it is a collision there,
too.
-/
theorem accepted_perfect (ops : List Operation) :
    let r := (Run.start.performAll ops).value.finish.value
    let pairs := r.accepted.map fun e => (e.role, e.mnemonic)
    (reportOf pairs).entries = r.accepted ∧
    (reportOf pairs).isPerfect = true ∧
    ((reportOf pairs).entries.map fun e => e.key).Nodup ∧
    ∀ e ∈ r.collisions,
      (reportOf (pairs ++ [(e.role, e.mnemonic)])).entries = r.accepted ++ [e] ∧
        e.collision = true := by
  intro r pairs
  have hc : (Run.start.performAll ops).value.Consistent (ops.flatMap Operation.handled) :=
    consistent_performAll ops
  have hflag : r.Flagged := hc.collision_iff
  have hkey : ∀ e ∈ r.entries, e.key = Key.of e.mnemonic := hc.key_eq
  have haccepted : ∀ e ∈ r.accepted, e.key = Key.of e.mnemonic :=
    fun e he => hkey e (List.mem_filter.mp he).1
  have hagain : reportOf pairs = ⟨r.accepted⟩ :=
    Report.reportOf_eq_of_flagged haccepted (Report.flagged_accepted hflag)
  refine ⟨congrArg Report.entries hagain, ?_, ?_, fun e he => ?_⟩
  · rw [hagain]
    exact r.isPerfect_accepted
  · rw [hagain]
    exact Report.nodup_accepted hflag
  · obtain ⟨hmem, hcollision⟩ := List.mem_filter.mp he
    have hkeys : ∀ e' ∈ r.accepted ++ [e], e'.key = Key.of e'.mnemonic := by
      intro e' he'
      rcases List.mem_append.mp he' with he' | he'
      · exact haccepted e' he'
      · rw [List.mem_singleton.mp he']
        exact hkey e hmem
    have hlonger := Report.reportOf_eq_of_flagged (r := ⟨r.accepted ++ [e]⟩) hkeys
      (Report.flagged_accepted_append hflag he)
    rw [List.map_append] at hlonger
    exact ⟨congrArg Report.entries hlonger, hcollision⟩

end PerfectKeys
