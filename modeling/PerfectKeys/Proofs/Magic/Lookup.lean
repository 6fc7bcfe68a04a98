import Mathlib.Data.List.Nodup
import PerfectKeys.Proofs.Magic.Answer
import PerfectKeys.Proofs.Magic.Hash
import PerfectKeys.Reference

/-!
# Looking names up

A table that a search returns is perfect: every entry stands in the slot of its name, and
no two entries share a slot. That is all the views of a table need.

* **The cells** hold in each slot the one entry that belongs there, so nothing is lost
  when the entries are written into them one after the other.
* **A lookup** goes to one slot only. A name that matches the text has the text's slot, so
  what a scan of all entries would find is there, and nothing else is.
-/

namespace PerfectKeys

/-! ## Keyed lists -/

/-- Where at most one element qualifies, the first that does is the one that does. -/
theorem find?_eq_some_iff_of_unique {α : Type} {l : List α} {p : α → Bool} {a : α}
    (hu : ∀ x ∈ l, ∀ y ∈ l, p x = true → p y = true → x = y) :
    l.find? p = some a ↔ a ∈ l ∧ p a = true := by
  refine ⟨fun h => ⟨List.mem_of_find?_eq_some h, List.find?_some h⟩, fun h => ?_⟩
  obtain ⟨ha, hp⟩ := h
  cases hfind : l.find? p with
  | none => exact absurd hp (List.find?_eq_none.mp hfind a ha)
  | some b => rw [hu b (List.mem_of_find?_eq_some hfind) a ha (List.find?_some hfind) hp]

namespace MagicTable

/-! ## Perfect tables -/

/-- The table is a perfect hash of its entries. -/
structure Perfect (t : MagicTable) : Prop where
  /-- Every entry stands in the slot of its name. -/
  placed : ∀ e ∈ t.entries, e.slot = t.scheme.slot t.magic e.name
  /-- No slot is taken twice. -/
  apart : (t.entries.map fun e => e.slot).Nodup

theorem perfect_ofNames {scheme : Scheme} {magic : UInt64} {names : List CodedName}
    (h : scheme.KeepsApart names magic) : (ofNames scheme magic names).Perfect where
  placed := by
    intro e he
    obtain ⟨n, -, rfl⟩ := List.mem_map.mp he
    rfl
  apart := by
    show ((names.map fun n => MagicEntry.mk n.name n.code (scheme.slot magic n.name)).map
      fun e => e.slot).Nodup
    rw [List.map_map]
    exact h

/-- **A search returns perfect tables only.** -/
theorem perfect_of_search {scheme : Scheme} {texts : List (String × UInt16)}
    {settings : SearchSettings} {t : MagicTable}
    (h : (search scheme texts settings).value = .ok t) : t.Perfect := by
  obtain ⟨names, -, ht, -, -, hm⟩ := exists_names_of_search h
  rw [ht]
  exact perfect_ofNames hm.1.2

section Views

variable {t : MagicTable}

/-! ## Cells -/

/-- Entries with different slots are written into the cells without loss. -/
theorem getElem?_foldl_set {entries : List MagicEntry} {cells : List (Option MagicEntry)} {i : Nat}
    (hnd : (entries.map fun e => e.slot).Nodup) (hi : i < cells.length) :
    (entries.foldl (fun cells e => cells.set e.slot (some e)) cells)[i]?
      = match entries.find? fun e => e.slot = i with
        | some e => some (some e)
        | none => cells[i]? := by
  -- the cells change with each entry that is written, but not their number
  induction entries generalizing cells with
  | nil => rfl
  | cons e rest ih =>
      rw [List.map_cons, List.nodup_cons] at hnd
      have hlen : i < (cells.set e.slot (some e)).length := by rwa [List.length_set]
      rw [List.foldl_cons, ih hnd.2 hlen, List.find?_cons]
      by_cases he : e.slot = i
      · -- no later entry overwrites the cell
        have hrest : rest.find? (fun e => e.slot = i) = none := by
          rw [List.find?_eq_none]
          intro e' he' hslot
          rw [decide_eq_true_eq] at hslot
          exact hnd.1 (List.mem_map.mpr ⟨e', he', hslot.trans he.symm⟩)
        rw [hrest, decide_eq_true he]
        dsimp only
        rw [he, List.getElem?_set_self hi]
      · rw [decide_eq_false he]
        dsimp only
        rw [List.getElem?_set_ne he]

theorem length_foldl_set (entries : List MagicEntry) (cells : List (Option MagicEntry)) :
    (entries.foldl (fun cells e => cells.set e.slot (some e)) cells).length = cells.length := by
  induction entries generalizing cells with
  | nil => rfl
  | cons e rest ih => rw [List.foldl_cons, ih, List.length_set]

/-- There is a cell for each slot. -/
theorem length_cells (t : MagicTable) : t.cells.length = t.scheme.slots := by
  unfold cells
  rw [length_foldl_set, List.length_replicate]

theorem getElem?_cells (h : t.Perfect) {i : Nat} (hi : i < t.scheme.slots) :
    t.cells[i]? = some (t.entries.find? fun e => e.slot = i) := by
  have hlen : i < (List.replicate t.scheme.slots (none : Option MagicEntry)).length := by
    rwa [List.length_replicate]
  unfold cells
  rw [getElem?_foldl_set h.apart hlen, List.getElem?_replicate, if_pos hi]
  cases t.entries.find? fun e => e.slot = i with
  | none => rfl
  | some e => rfl

/-! ## Lookups -/

theorem find?_slot_eq_some_iff (h : t.Perfect) {i : Nat} {e : MagicEntry} :
    (t.entries.find? fun e => e.slot = i) = some e ↔ e ∈ t.entries ∧ e.slot = i := by
  rw [find?_eq_some_iff_of_unique, decide_eq_true_eq]
  intro a ha b hb hai hbi
  rw [decide_eq_true_eq] at hai hbi
  exact List.inj_on_of_nodup_map h.apart ha hb (hai.trans hbi.symm)

/-- Entries that count as the same as one text have one slot. -/
theorem slot_eq_of_equates (h : t.Perfect) {e : MagicEntry} {m : Mnemonic} (he : e ∈ t.entries)
    (hm : t.scheme.Equates e.name.text m.text) : e.slot = t.scheme.slot t.magic m := by
  rw [h.placed e he]
  exact Scheme.slot_eq_of_matches (Scheme.matches_iff_equates.mpr hm) t.magic

/-- A lookup finds what a scan of all entries would. -/
theorem lookup_eq_some_iff (h : t.Perfect) {text : String} {e : MagicEntry} :
    t.lookup text = some e ↔ e ∈ t.entries ∧ t.scheme.Equates e.name.text text := by
  unfold lookup
  cases hm : Mnemonic.ofString text with
  | error cause =>
      -- no entry's name counts as the same as a text that is no name
      refine ⟨fun hnone => absurd hnone (by simp), fun hentry => ?_⟩
      obtain ⟨-, heq⟩ := hentry
      obtain ⟨m, rfl⟩ := Scheme.exists_text_of_equates heq
      rw [Mnemonic.ofString_eq_ok_iff.mpr rfl] at hm
      cases hm
  | ok m =>
      obtain rfl := Mnemonic.ofString_eq_ok_iff.mp hm
      dsimp only
      rw [find?_eq_some_iff_of_unique, decide_eq_true_eq, Scheme.matches_iff_equates]
      · refine ⟨fun hfound => ?_, fun hentry => ?_⟩
        · obtain ⟨he, -, heq⟩ := hfound
          exact ⟨he, heq⟩
        · obtain ⟨he, heq⟩ := hentry
          exact ⟨he, slot_eq_of_equates h he heq, heq⟩
      · -- two entries that qualify share a slot
        intro a ha b hb hpa hpb
        rw [decide_eq_true_eq] at hpa hpb
        exact List.inj_on_of_nodup_map h.apart ha hb (hpa.1.trans hpb.1.symm)

theorem lookup_eq_none_iff (h : t.Perfect) {text : String} :
    t.lookup text = none ↔ ∀ e ∈ t.entries, ¬ t.scheme.Equates e.name.text text := by
  refine ⟨fun hnone => ?_, fun hno => ?_⟩
  · intro e he heq
    rw [(lookup_eq_some_iff h).mpr ⟨he, heq⟩] at hnone
    cases hnone
  · cases hsome : t.lookup text with
    | none => rfl
    | some e =>
        obtain ⟨he, heq⟩ := (lookup_eq_some_iff h).mp hsome
        exact absurd heq (hno e he)

/-- A lookup reads one cell and compares one name. -/
theorem lookup_eq_filter (h : t.Perfect) (m : Mnemonic) :
    t.lookup m.text = (t.entries.find? fun e => e.slot = t.scheme.slot t.magic m).filter
      fun e => t.scheme.Equates e.name.text m.text := by
  refine Option.ext fun e => ?_
  rw [lookup_eq_some_iff h, Option.filter_eq_some_iff, find?_slot_eq_some_iff h, decide_eq_true_eq]
  refine ⟨fun hentry => ?_, fun hcell => ?_⟩
  · obtain ⟨he, heq⟩ := hentry
    exact ⟨⟨he, slot_eq_of_equates h he heq⟩, heq⟩
  · obtain ⟨⟨he, -⟩, heq⟩ := hcell
    exact ⟨he, heq⟩

end Views

/-! ## Tables that a search returns -/

section Searched

variable {scheme : Scheme} {texts : List (String × UInt16)} {settings : SearchSettings}
  {t : MagicTable}

theorem scheme_eq_of_search (h : (search scheme texts settings).value = .ok t) :
    t.scheme = scheme := by
  obtain ⟨names, -, ht, -⟩ := exists_names_of_search h
  rw [ht]
  rfl

/-- The entries are the texts with their numbers, in order. -/
theorem map_entries_of_search (h : (search scheme texts settings).value = .ok t) :
    (t.entries.map fun e => (e.name.text, e.code)) = texts := by
  obtain ⟨names, rfl, ht, -⟩ := exists_names_of_search h
  rw [ht]
  show ((names.map fun n => MagicEntry.mk n.name n.code (scheme.slot t.magic n.name)).map
    fun e => (e.name.text, e.code)) = names.map CodedName.given
  rw [List.map_map]
  rfl

end Searched

/--
**A lookup is exact.**

In a table that a search returned, a lookup finds the one entry whose name counts as the
same as the text, and nothing when there is none. For a name, that is what a program finds
that reads the cell in the name's slot and compares. Every text searched for is found with
its own number.
-/
theorem lookup_exact {scheme : Scheme} {texts : List (String × UInt16)}
    {settings : SearchSettings} {t : MagicTable}
    (h : (search scheme texts settings).value = .ok t) :
    (∀ text e, t.lookup text = some e ↔ e ∈ t.entries ∧ scheme.Equates e.name.text text) ∧
    (∀ (text : String) (i j : Nat) (a b : MagicEntry),
      t.entries[i]? = some a → t.entries[j]? = some b →
      scheme.Equates a.name.text text → scheme.Equates b.name.text text → i = j) ∧
    (∀ text, t.lookup text = none ↔ ∀ p ∈ texts, ¬ scheme.Equates p.1 text) ∧
    (∀ text m, Mnemonic.ofString text = .ok m →
      ∃ cell, t.cells[scheme.slot t.magic m]? = some cell ∧
        t.lookup text = cell.filter fun e => scheme.Equates e.name.text text) ∧
    (∀ p ∈ texts, ∃ e, t.lookup p.1 = some e ∧ e.name.text = p.1 ∧ e.code = p.2) := by
  have hp := perfect_of_search h
  have htexts := map_entries_of_search h
  obtain rfl := scheme_eq_of_search h
  refine ⟨fun text e => lookup_eq_some_iff hp, ?_, ?_, ?_, ?_⟩
  · intro text i j a b ha hb hea heb
    obtain ⟨m, rfl⟩ := Scheme.exists_text_of_equates hea
    refine index_eq_of_nodup_map hp.apart ha hb ?_
    rw [slot_eq_of_equates hp (List.mem_of_getElem? ha) hea,
      slot_eq_of_equates hp (List.mem_of_getElem? hb) heb]
  · intro text
    rw [lookup_eq_none_iff hp, ← htexts, List.forall_mem_map]
  · intro text m hm
    obtain rfl := Mnemonic.ofString_eq_ok_iff.mp hm
    have hlt : t.scheme.slot t.magic m < t.scheme.slots := t.scheme.slot_lt t.magic m
    exact ⟨_, getElem?_cells hp hlt, lookup_eq_filter hp m⟩
  · intro p hmem
    rw [← htexts] at hmem
    obtain ⟨e, he, rfl⟩ := List.mem_map.mp hmem
    exact ⟨e, (lookup_eq_some_iff hp).mpr ⟨he, t.scheme.equates_refl _⟩, rfl, rfl⟩

/-- Service names are found whatever their case, also where they differ in length only. -/
theorem lookup_exact_services : ∃ t : MagicTable,
    (search .services [("submission", 587), ("submissions", 465), ("https", 443)] .preset).value
        = .ok t ∧
      (∃ e, t.lookup "submissions" = some e ∧ e.name.text = "submissions" ∧ e.code = 465) ∧
      t.lookup "SUBMISSION" ≠ none ∧ t.lookup "http" = none := by
  have hok : (search .services [("submission", 587), ("submissions", 465), ("https", 443)]
      .preset).value.toOption.isSome = true := by
    decide +kernel
  cases h : (search .services [("submission", 587), ("submissions", 465), ("https", 443)]
      .preset).value with
  | error e =>
      rw [h] at hok
      cases hok
  | ok t =>
      obtain ⟨-, -, hnone, -, hown⟩ := lookup_exact h
      refine ⟨t, rfl, hown ("submissions", 465) (by simp), ?_, ?_⟩
      · rw [ne_eq, hnone "SUBMISSION"]
        exact fun hno => hno ("submission", 587) (by simp) (by decide +kernel)
      · rw [hnone "http"]
        decide +kernel

end MagicTable

end PerfectKeys
