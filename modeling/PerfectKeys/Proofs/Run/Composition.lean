import Mathlib.Data.Finset.Card
import PerfectKeys.Proofs.Run.Reordering

/-!
# Runs compose over the cells they share

A run can go on where another one stopped. All that it takes over is which cells are taken: the
entries that are there stay, and a mnemonic that is added gets the entry it would have had in a
run of its own, except that it is a collision as well when its cell had been taken before. So
the report of two runs, one behind the other, can be computed from the reports of each.

Collisions are counted key by key. A key that both runs have is accepted in each of them and
only once in the joint run, so the joint run has one more collision for each shared key, however
often the key comes in either part.
-/

namespace PerfectKeys

/-- The entry of a mnemonic that comes when these cells are already taken. -/
def Entry.behind (o : Occupancy) (e : Entry) : Entry :=
  { e with collision := e.collision || decide (e.key ∈ o) }

namespace Run

/-- A run that went on from the first one, and did what the second one did from the start. -/
structure Continues (joint first second : Run) : Prop where
  entries_eq : joint.entries = first.entries ++ second.entries.map (Entry.behind first.occupied)
  mem_occupied_iff : ∀ k, k ∈ joint.occupied ↔ k ∈ first.occupied ∨ k ∈ second.occupied

theorem continues_start (run : Run) : run.Continues run start where
  entries_eq := (List.append_nil run.entries).symm
  mem_occupied_iff := fun k => (or_iff_left (Occupancy.not_mem_empty k)).symm

/-- **A mnemonic that is added to both keeps them in step.** -/
theorem continues_afterAdd {joint first second : Run} (h : joint.Continues first second)
    (p : Role × Mnemonic) : (joint.afterAdd p).Continues first (second.afterAdd p) := by
  -- its cell is taken in the joint run when it is taken in one of the two
  have hflag : decide (Key.of p.2 ∈ joint.occupied)
      = (decide (Key.of p.2 ∈ second.occupied) || decide (Key.of p.2 ∈ first.occupied)) := by
    rw [← Bool.decide_or, decide_eq_decide, h.mem_occupied_iff, or_comm]
  rw [afterAdd_eq, afterAdd_eq]
  refine ⟨?_, fun k => ?_⟩
  · dsimp only
    rw [h.entries_eq, List.map_append, List.append_assoc, hflag]
    rfl
  · dsimp only
    rw [Occupancy.mem_insert_iff, Occupancy.mem_insert_iff, h.mem_occupied_iff]
    exact or_left_comm

theorem continues_addAll {joint first second : Run} (h : joint.Continues first second)
    (pairs : List (Role × Mnemonic)) :
    (joint.addAll pairs).Continues first (second.addAll pairs) := by
  induction pairs generalizing joint second with
  | nil => exact h
  | cons p pairs ih => exact ih (continues_afterAdd h p)

end Run

/-! ## Reports of runs -/

/-- The keys of mnemonics, in order. -/
def keysOf (pairs : List (Role × Mnemonic)) : List Key := pairs.map fun p => Key.of p.2

/-- A report depends only on what the operations of its run handled. -/
theorem report_performAll (ops : List Operation) :
    (Run.start.performAll ops).value.finish.value = reportOf (ops.flatMap Operation.handled) := by
  unfold reportOf
  rw [Run.value_performAll, Run.value_performAll, flatMap_handled_push]

theorem entries_reportOf (pairs : List (Role × Mnemonic)) :
    (reportOf pairs).entries = (Run.start.addAll pairs).entries := by
  unfold reportOf
  rw [Run.value_performAll, flatMap_handled_push]
  rfl

theorem map_key_reportOf (pairs : List (Role × Mnemonic)) :
    ((reportOf pairs).entries.map fun e => e.key) = keysOf pairs := by
  have hkeys := congrArg (List.map fun facts => facts.2.2) (map_facts_reportOf pairs)
  rwa [List.map_map, List.map_map] at hkeys

/-- The cells that a run has taken are those of its keys. -/
theorem mem_occupied_addAll_iff (pairs : List (Role × Mnemonic)) (k : Key) :
    k ∈ (Run.start.addAll pairs).occupied ↔ k ∈ keysOf pairs := by
  have h := consistent_addAll consistent_start pairs
  rw [h.mem_occupied_iff, ← map_key_reportOf, entries_reportOf, List.mem_map]

theorem entries_reportOf_append (first second : List (Role × Mnemonic)) :
    (reportOf (first ++ second)).entries = (reportOf first).entries ++
      (reportOf second).entries.map fun e =>
        { e with collision := e.collision || decide (e.key ∈ keysOf first) } := by
  have h := Run.continues_addAll (Run.continues_start (Run.start.addAll first)) second
  rw [entries_reportOf, entries_reportOf, entries_reportOf]
  have hjoint : Run.start.addAll (first ++ second) = (Run.start.addAll first).addAll second :=
    List.foldl_append
  rw [hjoint, h.entries_eq]
  refine congrArg _ (List.map_congr_left fun e _ => ?_)
  unfold Entry.behind
  rw [decide_eq_decide.mpr (mem_occupied_addAll_iff first e.key)]

/-- The distinct keys of a run and its collisions make up its mnemonics. -/
theorem collisionCount_reportOf_add (pairs : List (Role × Mnemonic)) :
    (reportOf pairs).collisionCount + (keysOf pairs).toFinset.card = pairs.length := by
  rw [← map_key_reportOf, Report.collisionCount_add_card (flagged_reportOf pairs),
    length_reportOf]

theorem collisionCount_reportOf_append (first second : List (Role × Mnemonic)) :
    (reportOf (first ++ second)).collisionCount
      = (reportOf first).collisionCount + (reportOf second).collisionCount
        + ((keysOf first).toFinset ∩ (keysOf second).toFinset).card := by
  -- each run has as many mnemonics as collisions and distinct keys, and the distinct keys of the
  -- joint run are those of both parts, the shared ones counted once
  have hfirst := collisionCount_reportOf_add first
  have hsecond := collisionCount_reportOf_add second
  have hjoint := collisionCount_reportOf_add (first ++ second)
  have hkeys : (keysOf (first ++ second)).toFinset
      = (keysOf first).toFinset ∪ (keysOf second).toFinset := by
    unfold keysOf
    rw [List.map_append, List.toFinset_append]
  have hcards := Finset.card_union_add_card_inter (keysOf first).toFinset (keysOf second).toFinset
  rw [hkeys, List.length_append] at hjoint
  omega

/--
**Runs compose over the cells they share.**

The report of a run over two lists of mnemonics starts with the report of the first list alone.
The other entries are those of the second list alone, flagged as well where their key occurs in
the first list, so each key that the lists share is one more collision. This is so for runs that
are driven in any way, because a report depends on nothing but the mnemonics that were handled.
-/
theorem runs_compose :
    (∀ first second : List (Role × Mnemonic),
      let joint := reportOf (first ++ second)
      joint.entries.take first.length = (reportOf first).entries ∧
      joint.entries.drop first.length = ((reportOf second).entries.map fun e =>
        { e with collision := e.collision || decide (e.key ∈ keysOf first) }) ∧
      joint.collisionCount = (reportOf first).collisionCount + (reportOf second).collisionCount
        + ((keysOf first).toFinset ∩ (keysOf second).toFinset).card) ∧
    ∀ ops : List Operation,
      (Run.start.performAll ops).value.finish.value = reportOf (ops.flatMap Operation.handled) := by
  refine ⟨fun first second => ⟨?_, ?_, collisionCount_reportOf_append first second⟩,
    report_performAll⟩
  · rw [entries_reportOf_append, List.take_left' (length_reportOf first)]
  · rw [entries_reportOf_append, List.drop_left' (length_reportOf first)]

end PerfectKeys
