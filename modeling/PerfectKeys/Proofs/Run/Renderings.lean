import PerfectKeys.Proofs.Report
import PerfectKeys.Proofs.Run.Consistency

/-!
# What a run was given can be read off its report

A report has an entry for each mnemonic that was pushed, with its role and in order, so
different sequences have different reports. Neither rendering of a report loses anything, so
they have different texts as well, and different JSON.
-/

namespace PerfectKeys

/-- The report of a run that these mnemonics are pushed to, in order. -/
def reportOf (pairs : List (Role × Mnemonic)) : Report :=
  (Run.start.performAll (pairs.map fun p => .push p.1 p.2.text)).value.finish.value

/-- After a run that these mnemonics are pushed to, nothing else was handled. -/
theorem consistent_pushAll (pairs : List (Role × Mnemonic)) :
    (Run.start.performAll (pairs.map fun p => .push p.1 p.2.text)).value.Consistent pairs := by
  have h := consistent_performAll (pairs.map fun p => .push p.1 p.2.text)
  rwa [flatMap_handled_push] at h

theorem map_entries_reportOf (pairs : List (Role × Mnemonic)) :
    ((reportOf pairs).entries.map fun e => (e.role, e.mnemonic)) = pairs :=
  (consistent_pushAll pairs).entries_eq

theorem reportOf_inj {pairs pairs' : List (Role × Mnemonic)} :
    reportOf pairs = reportOf pairs' ↔ pairs = pairs' := by
  refine ⟨fun h => ?_, fun h => by rw [h]⟩
  rw [← map_entries_reportOf pairs, h, map_entries_reportOf]

/--
**The renderings of a report lose nothing.**

The reports of two runs are equal exactly when the same mnemonics were pushed under the same
roles, and so are their texts and their compact JSON texts. Whatever the entries of a report
are, its text has a line for each of them, and either rendering determines all of them.
-/
theorem renderings_eq_iff :
    (∀ pairs pairs' : List (Role × Mnemonic),
      let r := reportOf pairs
      let r' := reportOf pairs'
      (r = r' ↔ pairs = pairs') ∧
        (r.text = r'.text ↔ pairs = pairs') ∧
        (r.json.compact = r'.json.compact ↔ pairs = pairs')) ∧
    (∀ r : Report, r.text = String.join (r.entries.map fun e =>
      s!"{e.role.text}: {e.mnemonic.text}, key: {e.key.bucket.val}, hash: {e.key.slot.toNat}"
        ++ (if e.collision then " (collision)" else "") ++ "\n")) ∧
    (∀ r r' : Report, (r.text = r'.text → r.entries = r'.entries) ∧
      (r.json.compact = r'.json.compact → r.entries = r'.entries)) := by
  refine ⟨fun pairs pairs' => ⟨reportOf_inj, ?_, ?_⟩, fun r => ?_, fun r r' => ⟨?_, ?_⟩⟩
  · rw [Report.text_inj, reportOf_inj]
  · rw [Report.compact_json_inj, reportOf_inj]
  · exact r.text_eq_join
  · intro h
    rw [Report.text_inj.mp h]
  · intro h
    rw [Report.compact_json_inj.mp h]

end PerfectKeys
