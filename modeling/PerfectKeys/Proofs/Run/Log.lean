import PerfectKeys.Proofs.Event
import PerfectKeys.Proofs.Run.Consistency

/-!
# The log of a run

A run writes its entries and its events side by side. Whatever operations drive it, all it ever
does is to add mnemonics, and adding one appends one entry and one event, of that very entry. So
the events of a run tell its entries, in order. The end of the run adds one event, and the numbers
in it are those of the events before.
-/

namespace PerfectKeys

/-! ## The log that belongs to a report -/

theorem level_record (e : Entry) :
    e.record.level = if e.collision = true then Level.warn else Level.trace := by
  unfold Entry.record
  dsimp only
  split
  · rfl
  · rfl

namespace Report

/-- What a run logs that ends in this report: a record of each entry, in order, and one that says
how many records that were and how many of them call for attention. -/
def log (r : Report) : List LogRecord :=
  let steps := r.entries.map Entry.record
  let keys := steps.countP fun step => step.level = .warn ∨ step.level = .trace
  let collisions := steps.countP fun step => step.level = .warn
  steps ++ [⟨.debug, "zone_keys::keys", s!"generated {keys} keys with {collisions} collisions"⟩]

theorem countP_steps (r : Report) :
    ((r.entries.map Entry.record).countP fun step => step.level = .warn ∨ step.level = .trace)
      = r.length := by
  rw [List.countP_map]
  refine List.countP_eq_length.mpr fun e _ => ?_
  show decide (e.record.level = .warn ∨ e.record.level = .trace) = true
  rw [level_record]
  cases e.collision with
  | false => rfl
  | true => rfl

theorem countP_warnings (r : Report) :
    ((r.entries.map Entry.record).countP fun step => step.level = .warn) = r.collisionCount := by
  unfold collisionCount collisions
  rw [List.countP_map, ← List.countP_eq_length_filter]
  refine List.countP_congr fun e _ => ?_
  show decide (e.record.level = .warn) = true ↔ _
  rw [level_record]
  cases e.collision with
  | false => decide
  | true => decide

theorem log_eq (r : Report) : r.log = r.entries.map Entry.record
    ++ [(Event.generated r.length r.collisionCount).record] := by
  unfold log
  dsimp only
  rw [countP_steps, countP_warnings]
  rfl

end Report

/-! ## Entries and events side by side -/

namespace Run

/-- Adding a mnemonic appends an entry, and the event of that entry. -/
theorem exists_events_add (run : Run) (p : Role × Mnemonic) :
    ∃ e, (run.afterAdd p).entries = run.entries ++ [e] ∧
      (run.add p.1 p.2).events = [.keyed e] := ⟨_, rfl, rfl⟩

/-- **The events of a run are those of the entries it appends.** -/
theorem map_keyed_addAll (run : Run) (pairs : List (Role × Mnemonic)) :
    (run.addAll pairs).entries.map Event.keyed
      = run.entries.map Event.keyed ++ (run.addEach pairs).events := by
  induction pairs generalizing run with
  | nil => exact (List.append_nil _).symm
  | cons p pairs ih =>
      obtain ⟨e, hentries, hevents⟩ := run.exists_events_add p
      have hrest : (run.addEach (p :: pairs)).events
          = (run.add p.1 p.2).events ++ ((run.afterAdd p).addEach pairs).events := by
        unfold addEach
        rw [List.foldlM_cons]
        simp only [Logged.events_bind, Logged.events_pure, List.append_nil]
        rfl
      show ((run.afterAdd p).addAll pairs).entries.map Event.keyed = _
      rw [ih (run.afterAdd p), hentries, hrest, hevents, List.map_append, List.append_assoc]
      rfl

/-- Where the run starts, its events tell all its entries. -/
theorem record_addEach_start (pairs : List (Role × Mnemonic)) :
    (start.addEach pairs).events.map Event.record
      = (start.addAll pairs).entries.map Entry.record := by
  have hevents := start.map_keyed_addAll pairs
  rw [show start.entries = [] from rfl, List.map_nil, List.nil_append] at hevents
  rw [← hevents, List.map_map]
  exact List.map_congr_left fun e _ => record_keyed e

/-- A finished run logs what belongs to its report. -/
theorem record_addEach_finish (pairs : List (Role × Mnemonic)) :
    (start.addEach pairs >>= Run.finish).events.map Event.record
      = (Report.mk (start.addAll pairs).entries).log := by
  rw [Logged.events_bind, List.map_append, record_addEach_start, value_addEach, Report.log_eq]
  rfl

end Run

end PerfectKeys
