import PerfectKeys.Proofs.Magic.Lookup

/-!
# The cells of a table

The view by slots is written one entry after the other into cells that are all empty at first.
An entry that was written over, or one without a cell, would be lost without notice. In a perfect
table neither happens: a cell holds the entry with its slot, so the cells that are used hold the
entries, each of them once, and as many cells are unused as there are slots more than entries.

The listing by slots prints the cells in order. So it has one item for each slot, which shows the
entry with that slot, or that there is none.
-/

namespace PerfectKeys.MagicTable

section Cells

variable {t : MagicTable}

theorem getElem?_cells_eq_none {i : Nat} (hi : ¬ i < t.scheme.slots) : t.cells[i]? = none := by
  refine List.getElem?_eq_none ?_
  rw [length_cells]
  exact Nat.le_of_not_lt hi

/-- **A cell holds an entry when it is the cell of the entry's slot.** -/
theorem getElem?_cells_eq_some_iff (h : t.Perfect) {i : Nat} {e : MagicEntry} :
    t.cells[i]? = some (some e) ↔ e ∈ t.entries ∧ e.slot = i := by
  rw [← find?_slot_eq_some_iff h]
  by_cases hi : i < t.scheme.slots
  · rw [getElem?_cells h hi, Option.some.injEq]
  · -- there is no such cell, and no entry has such a slot
    rw [getElem?_cells_eq_none hi]
    refine ⟨fun hnone => absurd hnone (by simp), fun hentry => ?_⟩
    obtain ⟨he, rfl⟩ := (find?_slot_eq_some_iff h).mp hentry
    rw [h.placed e he] at hi
    exact absurd (t.scheme.slot_lt t.magic e.name) hi

/-- An entry has one cell. -/
theorem existsUnique_cell (h : t.Perfect) {e : MagicEntry} (he : e ∈ t.entries) :
    ∃! i : Nat, t.cells[i]? = some (some e) := by
  refine ⟨e.slot, (getElem?_cells_eq_some_iff h).mpr ⟨he, rfl⟩, ?_⟩
  intro i hi
  exact ((getElem?_cells_eq_some_iff h).mp hi).2.symm

theorem cells_eq_map (h : t.Perfect) :
    t.cells = (List.range t.scheme.slots).map fun i => t.entries.find? fun e => e.slot = i := by
  refine List.ext_getElem? fun i => ?_
  rw [List.getElem?_map]
  by_cases hi : i < t.scheme.slots
  · rw [getElem?_cells h hi, List.getElem?_range hi, Option.map_some]
  · rw [getElem?_cells_eq_none hi, List.getElem?_eq_none (by simpa using hi), Option.map_none]

theorem nodup_entries (h : t.Perfect) : t.entries.Nodup := List.Nodup.of_map _ h.apart

/-- **The used cells hold the entries, each of them once.** -/
theorem used_cells_perm (h : t.Perfect) : (t.cells.filterMap id).Perm t.entries := by
  rw [cells_eq_map h, List.filterMap_map]
  have hnd : ((List.range t.scheme.slots).filterMap
      (id ∘ fun i => t.entries.find? fun e => e.slot = i)).Nodup := by
    refine List.Nodup.filterMap ?_ List.nodup_range
    intro i j e hi hj
    have hi := ((find?_slot_eq_some_iff h).mp hi).2
    have hj := ((find?_slot_eq_some_iff h).mp hj).2
    exact hi.symm.trans hj
  rw [List.perm_ext_iff_of_nodup hnd (nodup_entries h)]
  intro e
  rw [List.mem_filterMap]
  refine ⟨fun hcell => ?_, fun he => ?_⟩
  · obtain ⟨i, -, hi⟩ := hcell
    exact ((find?_slot_eq_some_iff h).mp hi).1
  · have hlt : e.slot < t.scheme.slots := by
      rw [h.placed e he]
      exact t.scheme.slot_lt t.magic e.name
    exact ⟨e.slot, List.mem_range.mpr hlt, (find?_slot_eq_some_iff h).mpr ⟨he, rfl⟩⟩

/-- Every cell is used by an entry or is unused. -/
theorem length_entries_add_count_none (h : t.Perfect) :
    t.entries.length + t.cells.count none = t.scheme.slots := by
  have hused : t.entries.length = t.cells.countP fun cell => cell.isSome := by
    rw [← (used_cells_perm h).length_eq, List.length_filterMap_eq_countP]
    rfl
  have hunused : t.cells.count none = t.cells.countP fun cell => decide ¬ cell.isSome = true := by
    refine List.countP_congr fun cell _ => ?_
    cases cell with
    | none => simp
    | some e => simp
  rw [hused, hunused, ← List.length_eq_countP_add_countP, length_cells]

/-! ## The listing by slots -/

/-- The listing has an item for each slot, in order. -/
theorem exists_items (h : t.Perfect) (labels : SlotLabels) :
    ∃ items : List String, t.slotListing labels = String.join items ∧
      items.length = t.scheme.slots ∧
      ∀ i < t.scheme.slots,
        (∀ e ∈ t.entries, e.slot = i → items[i]?
          = some s!"  {labels.used}(\"{e.name.text}\", {e.code.toNat}),\n") ∧
        ((∀ e ∈ t.entries, e.slot ≠ i) → items[i]? = some s!"  {labels.unused}(),\n") := by
  refine ⟨t.cells.map (cellLine labels), rfl, ?_, ?_⟩
  · rw [List.length_map, length_cells]
  · intro i hi
    refine ⟨?_, ?_⟩
    · intro e he hslot
      rw [List.getElem?_map, (getElem?_cells_eq_some_iff h).mpr ⟨he, hslot⟩]
      rfl
    · intro hnone
      have hempty : (t.entries.find? fun e => e.slot = i) = none := by
        rw [List.find?_eq_none]
        intro e he
        rw [decide_eq_true_eq]
        exact hnone e he
      rw [List.getElem?_map, getElem?_cells h hi, hempty]
      rfl

end Cells

/--
**The view by slots is complete.**

In a table that a search returned, there is a cell for each slot, and it holds the entry with that
slot. Every entry has one cell, so the used cells hold the entries, each of them once, and the
others are as many as the slots that are left; none, when there are as many names as slots. The
listing by slots has one item for each cell, in order, which ends its line.
-/
theorem cells_complete {scheme : Scheme} {texts : List (String × UInt16)}
    {settings : SearchSettings} {t : MagicTable}
    (h : (search scheme texts settings).value = .ok t) :
    t.cells.length = scheme.slots ∧
    (∀ i e, t.cells[i]? = some (some e) ↔ e ∈ t.entries ∧ e.slot = i) ∧
    (∀ e ∈ t.entries, ∃! i : Nat, t.cells[i]? = some (some e)) ∧
    (t.cells.filterMap id).Perm t.entries ∧
    t.entries.length = texts.length ∧
    texts.length + t.cells.count none = scheme.slots ∧
    (texts.length = scheme.slots → none ∉ t.cells) ∧
    (∀ labels : SlotLabels, ∃ items : List String, t.slotListing labels = String.join items ∧
      items.length = scheme.slots ∧
      ∀ i < scheme.slots,
        (∀ e ∈ t.entries, e.slot = i → items[i]?
          = some s!"  {labels.used}(\"{e.name.text}\", {e.code.toNat}),\n") ∧
        ((∀ e ∈ t.entries, e.slot ≠ i) → items[i]? = some s!"  {labels.unused}(),\n")) := by
  have hp := perfect_of_search h
  have hlength : t.entries.length = texts.length := by
    rw [← map_entries_of_search h, List.length_map]
  obtain rfl := scheme_eq_of_search h
  have hcount := length_entries_add_count_none hp
  rw [hlength] at hcount
  refine ⟨t.length_cells, fun i e => getElem?_cells_eq_some_iff hp,
    fun e he => existsUnique_cell hp he, used_cells_perm hp, hlength, hcount, ?_, exists_items hp⟩
  intro hfull
  rw [← List.count_eq_zero]
  omega

/-- A search that is seen to succeed has a table. -/
theorem exists_table_of_isSome {scheme : Scheme} {texts : List (String × UInt16)}
    {settings : SearchSettings}
    (h : (search scheme texts settings).value.toOption.isSome = true) :
    ∃ t, (search scheme texts settings).value = .ok t := by
  cases hvalue : (search scheme texts settings).value with
  | error e =>
      rw [hvalue] at h
      cases h
  | ok t => exact ⟨t, rfl⟩

/-- Two names in two slots leave no cell unused. -/
theorem cells_complete_two_slots : ∃ t : MagicTable,
    (search ⟨1, false, true⟩ [("A", 1), ("NS", 2)] .preset).value = .ok t ∧
      t.cells.length = 2 ∧ none ∉ t.cells ∧ (t.cells.filterMap id).Perm t.entries := by
  have hok : (search ⟨1, false, true⟩ [("A", 1), ("NS", 2)] .preset).value.toOption.isSome
      = true := by
    decide +kernel
  obtain ⟨t, ht⟩ := exists_table_of_isSome hok
  obtain ⟨hlength, -, -, hused, -, -, hfull, -⟩ := cells_complete ht
  exact ⟨t, ht, hlength, hfull rfl, hused⟩

end PerfectKeys.MagicTable
