import PerfectKeys.Proofs.Delimited
import PerfectKeys.Proofs.Json.Unambiguous
import PerfectKeys.Proofs.Magic.Listing

/-!
# A table can be read off its renderings

Names are written as they are in the text and in the listing by slots, whatever they have in them.
But no name has a blank, and in both forms one follows: behind the colon in the text, and behind
the quote and the comma in the listing. So the name ends in front of what is written before the
first blank. The numbers end where their digits do.

The text and the JSON form have the magic value and all of each entry. A listing does not show the
slots, but it has a line for each, so they are where the entries are shown.
-/

namespace PerfectKeys

theorem CodedName.eq_of_parts {n n' : CodedName} (hname : n.name = n'.name)
    (hcode : n.code.toNat = n'.code.toNat) : n = n' := by
  have hcode : n.code = n'.code := UInt16.toNat_inj.mp hcode
  cases n
  cases n'
  cases hname
  cases hcode
  rfl

namespace MagicEntry

theorem eq_of_coded_eq {e e' : MagicEntry} (hcoded : e.coded = e'.coded)
    (hslot : e.slot = e'.slot) : e = e' := by
  cases e
  cases e'
  cases hcoded
  cases hslot
  rfl

theorem eq_of_parts {e e' : MagicEntry} (hname : e.name = e'.name)
    (hcode : e.code.toNat = e'.code.toNat) (hslot : e.slot = e'.slot) : e = e' :=
  eq_of_coded_eq (CodedName.eq_of_parts hname hcode) hslot

/-! ## The text -/

/-- The characters of an entry's line in the text, with the line feed. -/
def lineChars (e : MagicEntry) : List Char := s!"{e.name}: {e.slot} ({e.code.toNat})\n".toList

theorem lineChars_eq (e : MagicEntry) : e.lineChars =
    e.name.chars ++ ':' :: ' ' :: (Nat.toDigits 10 e.slot
      ++ ' ' :: '(' :: (Nat.toDigits 10 e.code.toNat ++ ')' :: ['\n'])) := by
  unfold lineChars
  simp only [toString, ToString.toString, Mnemonic.text, Nat.repr_eq_ofList_toDigits,
    String.toList_append, String.toList_ofList]
  simp

/-- **An entry is read off the front of a text that starts with its line.** -/
theorem readsBack_lineChars (e : MagicEntry) : ReadsBack lineChars e := by
  intro e' rest rest' h
  rw [lineChars_eq, lineChars_eq] at h
  simp only [List.append_assoc, List.cons_append] at h
  obtain ⟨hname, h⟩ := Mnemonic.chars_append_inj [':'] (by decide) h
  obtain ⟨hslot, h⟩ := toDigits_append_cons_inj rfl rfl h
  obtain ⟨hcode, h⟩ := toDigits_append_cons_inj rfl rfl (List.cons.inj (List.cons.inj h).2).2
  exact ⟨eq_of_parts hname hcode hslot, (List.cons.inj (List.cons.inj h).2).2⟩

theorem neverStartsWith_lineFeed : NeverStartsWith lineChars '\n' := by
  intro e
  rw [lineChars_eq]
  cases hchars : e.name.chars with
  | nil => exact absurd (List.map_eq_nil_iff.mp hchars) e.name.ne_nil
  | cons c more =>
      have hc : c ∈ e.name.chars := by
        rw [hchars]
        exact List.mem_cons_self
      exact ⟨c, _, rfl, Mnemonic.ne_of_mem_chars hc (by decide)⟩

end MagicEntry

namespace MagicTable

/-- The text with what ends each part of its first line. -/
theorem toList_text (t : MagicTable) : t.text.toList =
    "i: ".toList ++ (Nat.toDigits 10 t.entries.length ++ ',' ::
      (" magic: ".toList ++ (Nat.toDigits 10 t.magic.toNat ++ '\n' ::
        t.entries.flatMap MagicEntry.lineChars))) := by
  have hlines : (String.join (t.entries.map fun e =>
      s!"{e.name}: {e.slot} ({e.code.toNat})\n")).toList
      = t.entries.flatMap MagicEntry.lineChars := by
    rw [String.toList_join, List.flatMap_map]
    rfl
  unfold text
  rw [String.toList_append, hlines]
  simp only [toString, Nat.repr_eq_ofList_toDigits, String.toList_append, String.toList_ofList]
  simp

theorem text_eq_iff {t t' : MagicTable} :
    t.text = t'.text ↔ t.magic = t'.magic ∧ t.entries = t'.entries := by
  refine ⟨fun h => ?_, fun h => ?_⟩
  · have h : t.text.toList = t'.text.toList := by rw [h]
    rw [toList_text, toList_text] at h
    obtain ⟨-, h⟩ := toDigits_append_cons_inj rfl rfl (List.append_cancel_left h)
    have h := List.append_cancel_left (List.cons.inj h).2
    obtain ⟨hmagic, h⟩ := toDigits_append_cons_inj rfl rfl h
    -- a line feed closes the lines, as no line starts with one
    have hlines : t.entries.flatMap MagicEntry.lineChars ++ '\n' :: []
        = t'.entries.flatMap MagicEntry.lineChars ++ '\n' :: [] := by
      rw [(List.cons.inj h).2]
    obtain ⟨hentries, -⟩ := flatMap_append_cons_inj MagicEntry.neverStartsWith_lineFeed
      (fun e _ => e.readsBack_lineChars) hlines
    exact ⟨UInt64.toNat_inj.mp hmagic, hentries⟩
  · obtain ⟨hmagic, hentries⟩ := h
    unfold text
    rw [hmagic, hentries]

/-! ## The JSON form -/

theorem compact_json_eq_iff {t t' : MagicTable} :
    t.json.compact = t'.json.compact ↔ t.magic = t'.magic ∧ t.entries = t'.entries := by
  refine ⟨fun h => ?_, fun h => ?_⟩
  · have hjson : t.json = t'.json := Json.compact_inj h
    unfold json at hjson
    simp only [Json.obj.injEq, List.cons.injEq, Prod.mk.injEq, Json.num.injEq, Json.arr.injEq,
      true_and, and_true] at hjson
    obtain ⟨hmagic, hentries⟩ := hjson
    refine ⟨UInt64.toNat_inj.mp hmagic, (List.map_inj_right ?_).mp hentries⟩
    intro e e' he
    simp only [Json.obj.injEq, List.cons.injEq, Prod.mk.injEq, Json.str.injEq, Json.num.injEq,
      true_and, and_true] at he
    obtain ⟨hname, hcode, hslot⟩ := he
    exact MagicEntry.eq_of_parts (Mnemonic.text_inj.mp hname) hcode hslot
  · obtain ⟨hmagic, hentries⟩ := h
    unfold json
    rw [hmagic, hentries]

/-! ## The listing by slots -/

section Listing

variable {labels : SlotLabels}

/-- What stands behind the parenthesis tells unused cells from used ones. -/
theorem cellChars_none_append_ne (h : labels.Clear) (n : CodedName) (rest rest' : List Char) :
    cellChars labels none ++ rest ≠ cellChars labels (some n) ++ rest' := by
  intro heq
  have hused : ∀ c ∈ labels.used.toList, c ≠ '(' := fun c hc => (h.used hc).1
  have hunused : ∀ c ∈ labels.unused.toList, c ≠ '(' := fun c hc => (h.unused hc).1
  simp only [cellChars, List.append_assoc, List.cons_append, List.cons.injEq, true_and] at heq
  -- the labels may differ, but both end at the parenthesis
  obtain ⟨-, hbehind⟩ := append_cons_inj_of_forall hunused hused (by simp) (by simp) heq
  exact absurd (List.cons.inj (List.cons.inj hbehind).2).1 (by decide)

/-- **What a cell shows is read off the front of a text that starts with its line.** -/
theorem readsBack_cellChars (h : labels.Clear) (cell : Option CodedName) :
    ReadsBack (fun cell => cellChars labels cell ++ ['\n']) cell := by
  intro cell' rest rest' heq
  simp only [List.append_assoc] at heq
  cases cell with
  | none =>
      cases cell' with
      | none => exact ⟨rfl, (List.cons.inj (List.append_cancel_left heq)).2⟩
      | some n' => exact absurd heq (cellChars_none_append_ne h n' _ _)
  | some n =>
      cases cell' with
      | none => exact absurd heq.symm (cellChars_none_append_ne h n _ _)
      | some n' =>
          simp only [cellChars, codeChars_eq, List.append_assoc, List.cons_append] at heq
          have heq := List.append_cancel_left (List.cons.inj (List.cons.inj heq).2).2
          have heq := (List.cons.inj (List.cons.inj heq).2).2
          obtain ⟨hname, heq⟩ := Mnemonic.chars_append_inj ['"', ','] (by decide) heq
          obtain ⟨hcode, heq⟩ := toDigits_append_cons_inj rfl rfl heq
          have hn : n = n' := CodedName.eq_of_parts hname hcode
          rw [hn]
          exact ⟨rfl, (List.cons.inj (List.cons.inj (List.cons.inj heq).2).2).2⟩

theorem shown_eq_of_slotListing_eq (h : labels.Clear) {t t' : MagicTable}
    (hlisting : t.slotListing labels = t'.slotListing labels) : t.shown = t'.shown := by
  have hlines : (t.slotListing labels).toList ++ '\n' :: []
      = (t'.slotListing labels).toList ++ '\n' :: [] := by
    rw [hlisting]
  rw [toList_slotListing, toList_slotListing] at hlines
  have hstart : NeverStartsWith (fun cell => cellChars labels cell ++ ['\n']) '\n' := by
    intro cell
    cases cell with
    | none => exact ⟨' ', _, rfl, by decide⟩
    | some n => exact ⟨' ', _, rfl, by decide⟩
  exact (flatMap_append_cons_inj hstart (fun cell _ => readsBack_cellChars h cell) hlines).1

/-- An entry is shown in the line of its slot, so nothing of it is missing. -/
theorem getElem?_cells_of_shown_eq {t t' : MagicTable} (hp : t.Perfect) (hp' : t'.Perfect)
    (h : t.shown = t'.shown) {i : Nat} {cell : Option MagicEntry}
    (hcell : t.cells[i]? = some cell) : t'.cells[i]? = some cell := by
  have hshown : t'.shown[i]? = some (cell.map MagicEntry.coded) := by
    rw [← h]
    exact getElem?_shown hcell
  unfold shown at hshown
  rw [List.getElem?_map] at hshown
  obtain ⟨cell', hcell', heq⟩ := Option.map_eq_some_iff.mp hshown
  rw [hcell']
  cases cell with
  | none =>
      cases cell' with
      | none => rfl
      | some e' => cases heq
  | some e =>
      cases cell' with
      | none => cases heq
      | some e' =>
          have hslot := ((getElem?_cells_eq_some_iff hp).mp hcell).2
          have hslot' := ((getElem?_cells_eq_some_iff hp').mp hcell').2
          have hcoded : e'.coded = e.coded := Option.some.inj heq
          rw [MagicEntry.eq_of_coded_eq hcoded (hslot'.trans hslot.symm)]

end Listing

/--
**A table can be read off each of its renderings.**

The texts of two tables that searches returned are the same exactly when their JSON texts are, and
that is so exactly when the tables have the same magic value and the same entries, in the same
order. Under the same labels, when these are identifiers, the listings are the same exactly when
the views by slots are. Nothing is asked of the names.
-/
theorem renderings_determine {scheme scheme' : Scheme} {texts texts' : List (String × UInt16)}
    {settings settings' : SearchSettings} {t t' : MagicTable}
    (h : (search scheme texts settings).value = .ok t)
    (h' : (search scheme' texts' settings').value = .ok t') :
    (t.text = t'.text ↔ t.json.compact = t'.json.compact) ∧
    (t.json.compact = t'.json.compact ↔ t.magic = t'.magic ∧ t.entries = t'.entries) ∧
    (∀ labels : SlotLabels, labels.Clear →
      (t.slotListing labels = t'.slotListing labels ↔ t.cells = t'.cells)) := by
  refine ⟨text_eq_iff.trans compact_json_eq_iff.symm, compact_json_eq_iff, ?_⟩
  intro labels hlabels
  refine ⟨fun hlisting => ?_, fun hcells => ?_⟩
  · have hshown := shown_eq_of_slotListing_eq hlabels hlisting
    have hp := perfect_of_search h
    have hp' := perfect_of_search h'
    refine List.ext_getElem? fun i => Option.ext fun cell => ⟨fun hcell => ?_, fun hcell => ?_⟩
    · exact getElem?_cells_of_shown_eq hp hp' hshown hcell
    · exact getElem?_cells_of_shown_eq hp' hp hshown.symm hcell
  · unfold slotListing
    rw [hcells]

/-- A colon at the end of a name is not taken for the one behind it. -/
theorem renderings_determine_colon : ∃ t t' : MagicTable,
    (search ⟨1, false, false⟩ [("a:", 1)] .preset).value = .ok t ∧
      (search ⟨1, false, false⟩ [("a", 1)] .preset).value = .ok t' ∧
      t.text ≠ t'.text ∧ t.json.compact ≠ t'.json.compact := by
  have hok : (search ⟨1, false, false⟩ [("a:", 1)] .preset).value.toOption.isSome = true := by
    decide +kernel
  have hok' : (search ⟨1, false, false⟩ [("a", 1)] .preset).value.toOption.isSome = true := by
    decide +kernel
  obtain ⟨t, ht⟩ := exists_table_of_isSome hok
  obtain ⟨t', ht'⟩ := exists_table_of_isSome hok'
  obtain ⟨htext, hjson, -⟩ := renderings_determine ht ht'
  have hne : t.entries ≠ t'.entries := by
    intro hentries
    have htexts : [("a:", (1 : UInt16))] = [("a", 1)] := by
      rw [← map_entries_of_search ht, ← map_entries_of_search ht', hentries]
    exact absurd htexts (by decide)
  have hnejson : t.json.compact ≠ t'.json.compact := fun heq => hne (hjson.mp heq).2
  exact ⟨t, t', ht, ht', fun heq => hnejson (htext.mp heq), hnejson⟩

end MagicTable

end PerfectKeys
