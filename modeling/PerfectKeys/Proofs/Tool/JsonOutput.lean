import PerfectKeys.Proofs.Json.Layouts
import PerfectKeys.Proofs.Spelling
import PerfectKeys.Tool.Execution

/-!
# What the tool prints as JSON

The tool prints JSON over indented lines and closes it with a line feed. A program that has no
use for the lines may delete every space and line feed: what is left is the compact JSON of the
same report or table. For other JSON this could damage strings, but no name has a blank in it,
and neither have the members' names. Either text spells the report or the table, entry by entry,
and nothing else.
-/

namespace PerfectKeys

namespace Mnemonic

theorem space_notMem_text (m : Mnemonic) : ' ' ∉ m.text.toList := by
  intro h
  rw [toList_text] at h
  exact ne_of_mem_chars h (by decide) rfl

end Mnemonic

theorem Entry.spaceless_json (e : Entry) : e.json.Spaceless := by
  have hrole : ' ' ∉ e.role.text.toList := by
    cases e.role with
    | zoneClass => decide
    | recordType => decide
  refine Json.spaceless_obj fun name value hmember => ?_
  simp only [List.mem_cons, Prod.mk.injEq, List.not_mem_nil, or_false] at hmember
  rcases hmember with ⟨rfl, rfl⟩ | ⟨rfl, rfl⟩ | ⟨rfl, rfl⟩ | ⟨rfl, rfl⟩ | ⟨rfl, rfl⟩
  · exact ⟨by decide, Json.spaceless_str hrole⟩
  · exact ⟨by decide, Json.spaceless_str e.mnemonic.space_notMem_text⟩
  · exact ⟨by decide, Json.spaceless_num _⟩
  · exact ⟨by decide, Json.spaceless_num _⟩
  · exact ⟨by decide, Json.spaceless_bool _⟩

theorem Report.spaceless_json (r : Report) : r.json.Spaceless := by
  refine Json.spaceless_arr fun item hitem => ?_
  obtain ⟨e, -, rfl⟩ := List.mem_map.mp hitem
  exact e.spaceless_json

theorem MagicTable.spaceless_json (t : MagicTable) : t.json.Spaceless := by
  have hentry (e : MagicEntry) : (Json.obj [("name", .str e.name.text), ("code", .num e.code.toNat),
      ("slot", .num e.slot)]).Spaceless := by
    refine Json.spaceless_obj fun name value hmember => ?_
    simp only [List.mem_cons, Prod.mk.injEq, List.not_mem_nil, or_false] at hmember
    rcases hmember with ⟨rfl, rfl⟩ | ⟨rfl, rfl⟩ | ⟨rfl, rfl⟩
    · exact ⟨by decide, Json.spaceless_str e.name.space_notMem_text⟩
    · exact ⟨by decide, Json.spaceless_num _⟩
    · exact ⟨by decide, Json.spaceless_num _⟩
  refine Json.spaceless_obj fun name value hmember => ?_
  simp only [List.mem_cons, Prod.mk.injEq, List.not_mem_nil, or_false] at hmember
  rcases hmember with ⟨rfl, rfl⟩ | ⟨rfl, rfl⟩
  · exact ⟨by decide, Json.spaceless_num _⟩
  · refine ⟨by decide, Json.spaceless_arr fun item hitem => ?_⟩
    obtain ⟨e, -, rfl⟩ := List.mem_map.mp hitem
    exact hentry e

/--
**The JSON that the tool prints is the compact JSON with more blanks.**

For every report, and for every table however it was asked for: the text that is printed ends in
one line feed, it is the compact text once its spaces and line feeds are deleted, and both texts
spell one value only, the list of the entries with what is known of each or the object with the
magic value and the entries.
-/
theorem printed_json_agrees :
    (∀ r : Report,
      Json.Agree (.arr (r.entries.map fun e =>
        .obj [("role", .str e.role.text), ("mnemonic", .str e.mnemonic.text),
          ("bucket", .num e.key.bucket.val), ("hash", .num e.key.slot.toNat),
          ("collided", .bool e.collision)])) (r.render .json) r.json.compact) ∧
    ∀ (request : MagicRequest) (t : MagicTable),
      Json.Agree (.obj [("magic", .num t.magic.toNat), ("entries", .arr (t.entries.map fun e =>
        .obj [("name", .str e.name.text), ("code", .num e.code.toNat), ("slot", .num e.slot)]))])
        (MagicRequest.render { request with format := .json } t) t.json.compact :=
  ⟨fun r => Json.agree_of_spaceless r.spaceless_json,
    fun _ t => Json.agree_of_spaceless t.spaceless_json⟩

end PerfectKeys
