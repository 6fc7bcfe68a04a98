import Mathlib.Data.List.Basic
import PerfectKeys.Proofs.Delimited
import PerfectKeys.Proofs.Json.Unambiguous
import PerfectKeys.Proofs.Spelling
import PerfectKeys.Report

/-!
# A report can be read off its renderings

In the text, a line is taken apart from the left. The role ends at the first colon. A
mnemonic may hold colons, commas and parentheses, but no blank and no line feed, so it ends
before the comma in front of the next blank. The two numbers end where their digits do, and
what is left tells the flag.

In the JSON form the text determines the value, and the members of an entry's object are the
fields of the entry.
-/

namespace PerfectKeys

theorem Role.text_inj {a b : Role} (h : a.text = b.text) : a = b := by
  cases a with
  | zoneClass =>
      cases b with
      | zoneClass => rfl
      | recordType => exact absurd h (by decide)
  | recordType =>
      cases b with
      | zoneClass => exact absurd h (by decide)
      | recordType => rfl

namespace Entry

theorem eq_of_parts {e e' : Entry} (hrole : e.role = e'.role) (hm : e.mnemonic = e'.mnemonic)
    (hkey : e.key = e'.key) (hcollision : e.collision = e'.collision) : e = e' := by
  cases e
  cases e'
  cases hrole
  cases hm
  cases hkey
  cases hcollision
  rfl

/-! ## Lines -/

/-- The end of a line, behind the slot. -/
def lineEnd (collision : Bool) : List Char :=
  if collision then " (collision)\n".toList else ['\n']

theorem lineEnd_inj {a b : Bool} {rest rest' : List Char}
    (h : lineEnd a ++ rest = lineEnd b ++ rest') : a = b ∧ rest = rest' := by
  cases a with
  | false =>
      cases b with
      | false => exact ⟨rfl, (List.cons.inj h).2⟩
      | true => exact absurd (List.cons.inj h).1 (by decide)
  | true =>
      cases b with
      | false => exact absurd (List.cons.inj h).1 (by decide)
      | true => exact ⟨rfl, List.append_cancel_left h⟩

theorem exists_lineEnd_eq_cons (collision : Bool) :
    ∃ c more, lineEnd collision = c :: more ∧ c.isDigit = false := by
  cases collision with
  | false => exact ⟨'\n', [], rfl, rfl⟩
  | true => exact ⟨' ', "(collision)\n".toList, by decide, rfl⟩

/-- The characters of an entry's line, with the line feed. -/
def lineChars (e : Entry) : List Char := (e.line ++ "\n").toList

/-- The parts of a line with what ends each of them. -/
theorem lineChars_eq (e : Entry) : e.lineChars =
    e.role.text.toList ++ ':' :: ' ' :: (e.mnemonic.chars ++ ',' :: ' ' ::
      ("key: ".toList ++ (Nat.toDigits 10 e.key.bucket.val ++ ',' ::
        (" hash: ".toList ++ (Nat.toDigits 10 e.key.slot.toNat ++ lineEnd e.collision))))) := by
  unfold lineChars line Key.text lineEnd
  simp only [toString, ToString.toString, Mnemonic.text, Nat.repr_eq_ofList_toDigits,
    String.toList_append, String.toList_ofList, List.append_assoc]
  cases e.collision with
  | false => rfl
  | true => rfl

/-- **An entry is read off the front of a text that starts with its line.** -/
theorem readsBack_lineChars (e : Entry) : ReadsBack lineChars e := by
  intro e' rest rest' h
  rw [lineChars_eq, lineChars_eq] at h
  simp only [List.append_assoc, List.cons_append] at h
  have hrole (r : Role) : ∀ c ∈ r.text.toList, c ≠ ':' := by
    intro c hc hcolon
    rw [hcolon] at hc
    cases r with
    | zoneClass => exact absurd hc (by decide)
    | recordType => exact absurd hc (by decide)
  obtain ⟨hr, h⟩ := append_cons_inj_of_forall (hrole e.role) (hrole e'.role) (by simp) (by simp) h
  have hr : e.role = e'.role := Role.text_inj (String.toList_inj.mp hr)
  have h := (List.cons.inj (List.cons.inj h).2).2
  obtain ⟨hm, h⟩ := Mnemonic.chars_append_inj [','] (by decide) h
  obtain ⟨hbucket, h⟩ := toDigits_append_cons_inj rfl rfl (List.append_cancel_left h)
  have h := List.append_cancel_left (List.cons.inj h).2
  obtain ⟨c, more, hend, hc⟩ := exists_lineEnd_eq_cons e.collision
  obtain ⟨c', more', hend', hc'⟩ := exists_lineEnd_eq_cons e'.collision
  -- what ends the slot depends on the flag, but it is no digit in either case
  have hslot : e.key.slot.toNat = e'.key.slot.toNat ∧
      lineEnd e.collision ++ rest = lineEnd e'.collision ++ rest' := by
    rw [hend, hend', List.cons_append, List.cons_append] at h ⊢
    exact toDigits_append_cons_inj hc hc' h
  obtain ⟨hcollision, hrest⟩ := lineEnd_inj hslot.2
  have hkey : e.key = e'.key := Key.eq_of_parts hbucket hslot.1
  exact ⟨eq_of_parts hr hm hkey hcollision, hrest⟩

theorem neverStartsWith_lineFeed : NeverStartsWith lineChars '\n' := by
  intro e
  rw [lineChars_eq]
  cases e.role with
  | zoneClass => exact ⟨'c', _, rfl, by decide⟩
  | recordType => exact ⟨'t', _, rfl, by decide⟩

/-! ## Objects -/

theorem json_inj {e e' : Entry} (h : e.json = e'.json) : e = e' := by
  unfold json at h
  simp only [Json.obj.injEq, List.cons.injEq, Prod.mk.injEq, Json.str.injEq, Json.num.injEq,
    Json.bool.injEq, true_and, and_true] at h
  obtain ⟨hrole, hmnemonic, hbucket, hslot, hcollision⟩ := h
  have hr : e.role = e'.role := Role.text_inj hrole
  have hm : e.mnemonic = e'.mnemonic := Mnemonic.text_inj.mp hmnemonic
  have hkey : e.key = e'.key := Key.eq_of_parts hbucket hslot
  exact eq_of_parts hr hm hkey hcollision

end Entry

namespace Report

theorem eq_of_entries_eq {r r' : Report} (h : r.entries = r'.entries) : r = r' := by
  cases r
  cases r'
  cases h
  rfl

/-- The text has a line for each entry. -/
theorem text_eq_join (r : Report) : r.text = String.join (r.entries.map fun e =>
    s!"{e.role.text}: {e.mnemonic.text}, key: {e.key.bucket.val}, hash: {e.key.slot.toNat}"
      ++ (if e.collision then " (collision)" else "") ++ "\n") := by
  have hline (e : Entry) : e.line =
      s!"{e.role.text}: {e.mnemonic.text}, key: {e.key.bucket.val}, hash: {e.key.slot.toNat}"
        ++ (if e.collision then " (collision)" else "") := by
    refine String.toList_inj.mp ?_
    unfold Entry.line Key.text
    simp only [toString, String.toList_append, List.append_assoc]
    rfl
  unfold text
  simp only [hline]

theorem toList_text (r : Report) : r.text.toList = r.entries.flatMap Entry.lineChars := by
  unfold text
  rw [String.toList_join, List.flatMap_map]
  rfl

theorem text_inj {r r' : Report} : r.text = r'.text ↔ r = r' := by
  refine ⟨fun h => ?_, fun h => by rw [h]⟩
  have hlines : r.entries.flatMap Entry.lineChars ++ '\n' :: []
      = r'.entries.flatMap Entry.lineChars ++ '\n' :: [] := by
    rw [← toList_text, ← toList_text, h]
  obtain ⟨hentries, -⟩ := flatMap_append_cons_inj Entry.neverStartsWith_lineFeed
    (fun e _ => e.readsBack_lineChars) hlines
  exact eq_of_entries_eq hentries

theorem compact_json_inj {r r' : Report} : r.json.compact = r'.json.compact ↔ r = r' := by
  refine ⟨fun h => ?_, fun h => by rw [h]⟩
  have hjson : r.json = r'.json := Json.compact_inj h
  unfold json at hjson
  exact eq_of_entries_eq ((List.map_inj_right fun _ _ => Entry.json_inj).mp (Json.arr.inj hjson))

end Report

end PerfectKeys
