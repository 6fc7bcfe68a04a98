import PerfectKeys.Proofs.Magic.Cells
import PerfectKeys.Proofs.ProgramText

/-!
# The listing by slots as program text

A listing is meant to be pasted into a program, so the name in a line should be a literal there.
It stands between double quotes, and is written as it is. The literal therefore ends too early at
a quote in the name, and a backslash in the name starts an escape: a listing can be pasted exactly
when its names have neither. Nothing is said against them where names are accepted, and the form
that names have in diagnostics guards them.

Identifiers are used as labels. All that is asked of them here is that they do not have the
characters that the parts of a line are told apart by.
-/

namespace PerfectKeys

/-- No label has an opening parenthesis, a double quote or a line feed. No identifier has. -/
def SlotLabels.Clear (labels : SlotLabels) : Prop :=
  ∀ c ∈ labels.used.toList ++ labels.unused.toList, c ≠ '(' ∧ c ≠ '"' ∧ c ≠ '\n'

instance : DecidablePred SlotLabels.Clear := fun labels =>
  List.decidableBAll _ (labels.used.toList ++ labels.unused.toList)

namespace SlotLabels

variable {labels : SlotLabels}

theorem Clear.used (h : labels.Clear) {c : Char} (hc : c ∈ labels.used.toList) :
    c ≠ '(' ∧ c ≠ '"' ∧ c ≠ '\n' :=
  h c (List.mem_append_left _ hc)

theorem Clear.unused (h : labels.Clear) {c : Char} (hc : c ∈ labels.unused.toList) :
    c ≠ '(' ∧ c ≠ '"' ∧ c ≠ '\n' :=
  h c (List.mem_append_right _ hc)

end SlotLabels

/-- What a line of a listing shows of an entry. -/
def MagicEntry.coded (e : MagicEntry) : CodedName := ⟨e.name, e.code⟩

namespace MagicTable

/-! ## Lines -/

/-- What stands behind the name's closing quote. -/
def codeChars (code : UInt16) : List Char := s!", {code.toNat}),".toList

theorem codeChars_eq (code : UInt16) :
    codeChars code = ',' :: ' ' :: (Nat.toDigits 10 code.toNat ++ [')', ',']) := by
  unfold codeChars
  simp only [toString, ToString.toString, Nat.repr_eq_ofList_toDigits, String.toList_append,
    String.toList_ofList]
  rfl

/-- The characters of a cell's line, without the line feed. -/
def cellChars (labels : SlotLabels) : Option CodedName → List Char
  | some n => ' ' :: ' ' :: (labels.used.toList
      ++ '(' :: '"' :: (n.name.chars ++ '"' :: codeChars n.code))
  | none => ' ' :: ' ' :: (labels.unused.toList ++ ['(', ')', ','])

theorem toList_cellLine (labels : SlotLabels) (cell : Option MagicEntry) :
    (cellLine labels cell).toList = cellChars labels (cell.map MagicEntry.coded) ++ ['\n'] := by
  cases cell with
  | none =>
      unfold cellLine
      simp only [toString, String.toList_append]
      simp [cellChars]
  | some e =>
      unfold cellLine
      simp only [toString, ToString.toString, Mnemonic.text, Nat.repr_eq_ofList_toDigits,
        String.toList_append, String.toList_ofList]
      simp [cellChars, codeChars_eq, MagicEntry.coded]

/-- What the lines of a listing show. -/
def shown (t : MagicTable) : List (Option CodedName) := t.cells.map (Option.map MagicEntry.coded)

theorem getElem?_shown {t : MagicTable} {i : Nat} {cell : Option MagicEntry}
    (h : t.cells[i]? = some cell) : t.shown[i]? = some (cell.map MagicEntry.coded) := by
  unfold shown
  rw [List.getElem?_map, h, Option.map_some]

/-- A listing has a line for each cell. -/
theorem toList_slotListing (t : MagicTable) (labels : SlotLabels) :
    (t.slotListing labels).toList
      = t.shown.flatMap fun cell => cellChars labels cell ++ ['\n'] := by
  unfold slotListing shown
  rw [String.toList_join, List.flatMap_map, List.flatMap_map]
  exact List.flatMap_congr fun cell _ => toList_cellLine labels cell

theorem lineFeed_notMem_cellChars {labels : SlotLabels} (h : labels.Clear)
    (cell : Option CodedName) : '\n' ∉ cellChars labels cell := by
  cases cell with
  | none =>
      have hlabel : '\n' ∉ labels.unused.toList := fun hmem => (h.unused hmem).2.2 rfl
      simp [cellChars, hlabel]
  | some n =>
      have hlabel : '\n' ∉ labels.used.toList := fun hmem => (h.used hmem).2.2 rfl
      have hname : '\n' ∉ n.name.chars := by
        intro hmem
        exact Mnemonic.ne_of_mem_chars hmem (by decide) rfl
      have hcode : '\n' ∉ Nat.toDigits 10 n.code.toNat := by
        intro hmem
        exact absurd (Nat.isDigit_of_mem_toDigits (by decide) (by decide) hmem) (by decide)
      simp [cellChars, codeChars_eq, hlabel, hname, hcode]

/-- The lines of a listing. -/
def lines (t : MagicTable) (labels : SlotLabels) : List (List Char) :=
  (t.slotListing labels).toList.splitOn '\n'

theorem splitOn_flatMap {lines : List (List Char)} (h : ∀ line ∈ lines, '\n' ∉ line) :
    (lines.flatMap fun line => line ++ ['\n']).splitOn '\n' = lines ++ [[]] := by
  induction lines with
  | nil => rfl
  | cons line lines ih =>
      obtain ⟨hline, hlines⟩ := List.forall_mem_cons.mp h
      have hplain : ∀ c ∈ line, (c == '\n') = false := by
        intro c hc
        rw [beq_eq_false_iff_ne]
        exact ne_of_mem_of_not_mem hc hline
      rw [List.flatMap_cons, List.append_assoc, List.singleton_append, List.splitOn,
        List.splitOnP_append_cons_of_forall_mem hplain '\n' rfl]
      exact congrArg (line :: ·) (ih hlines)

/-- The line of a slot shows what the cell of the slot holds. -/
theorem getElem?_lines (t : MagicTable) {labels : SlotLabels} (h : labels.Clear) {i : Nat}
    {cell : Option MagicEntry} (hcell : t.cells[i]? = some cell) :
    (t.lines labels)[i]? = some (cellChars labels (cell.map MagicEntry.coded)) := by
  have hlines : t.lines labels = t.shown.map (cellChars labels) ++ [[]] := by
    unfold lines
    rw [toList_slotListing, ← List.flatMap_map (cellChars labels) fun line => line ++ ['\n']]
    refine splitOn_flatMap ?_
    rw [List.forall_mem_map]
    exact fun cell _ => lineFeed_notMem_cellChars h cell
  have hshown := getElem?_shown hcell
  have hlt : i < (t.shown.map (cellChars labels)).length := by
    rw [List.length_map]
    exact (List.getElem?_eq_some_iff.mp hshown).1
  rw [hlines, List.getElem?_append_left hlt, List.getElem?_map, hshown, Option.map_some]

/-! ## Names as literals -/

/-- In the line of each entry, the first literal is complete and spells the entry's name. The code
follows it, and nothing else. -/
def Pastes (t : MagicTable) (labels : SlotLabels) : Prop :=
  ∀ (i : Nat) (e : MagicEntry), t.cells[i]? = some (some e) →
    ∃ line, (t.lines labels)[i]? = some line ∧
      ProgramText.firstLiteral? line = some (e.name.chars, s!", {e.code.toNat}),".toList)

/-- The name in a line is written as it is, so it is read back when it is plain. -/
theorem firstLiteral?_cellChars_iff {labels : SlotLabels} (h : labels.Clear) (n : CodedName) :
    ProgramText.firstLiteral? (cellChars labels (some n)) = some (n.name.chars, codeChars n.code) ↔
      ∀ c ∈ n.name.chars, c ≠ '"' ∧ c ≠ '\\' := by
  have hbefore : '"' ∉ ' ' :: ' ' :: (labels.used.toList ++ ['(']) := by
    have hlabel : '"' ∉ labels.used.toList := fun hmem => (h.used hmem).2.1 rfl
    simp [hlabel]
  have hline : cellChars labels (some n) = (' ' :: ' ' :: (labels.used.toList ++ ['(']))
      ++ '"' :: (n.name.chars ++ '"' :: codeChars n.code) := by
    simp [cellChars]
  rw [hline, ProgramText.firstLiteral?_append hbefore, ProgramText.literal?_eq_self_iff]
  refine forall₂_congr fun c hc => ⟨fun hplain => ⟨hplain.1, hplain.2.1⟩, fun hname => ?_⟩
  exact ⟨hname.1, hname.2, Mnemonic.ne_of_mem_chars hc (by decide)⟩

theorem pastes_iff_entries {t : MagicTable} (hp : t.Perfect) {labels : SlotLabels}
    (h : labels.Clear) :
    t.Pastes labels ↔ ∀ e ∈ t.entries, ∀ c ∈ e.name.text.toList, c ≠ '"' ∧ c ≠ '\\' := by
  -- the line of an entry is the one of its slot, and only that
  have hcell (i : Nat) (e : MagicEntry) (hi : t.cells[i]? = some (some e)) :
      (∃ line, (t.lines labels)[i]? = some line ∧
        ProgramText.firstLiteral? line = some (e.name.chars, codeChars e.code)) ↔
        ∀ c ∈ e.name.chars, c ≠ '"' ∧ c ≠ '\\' := by
    refine Iff.trans ?_ (firstLiteral?_cellChars_iff h e.coded)
    rw [getElem?_lines t h hi]
    refine ⟨fun hline => ?_, fun hread => ⟨_, rfl, hread⟩⟩
    obtain ⟨line, hline, hread⟩ := hline
    cases hline
    exact hread
  refine ⟨fun hpastes => ?_, fun hnames => ?_⟩
  · intro e he
    have hi := (getElem?_cells_eq_some_iff hp).mpr ⟨he, rfl⟩
    rw [Mnemonic.toList_text]
    exact (hcell e.slot e hi).mp (hpastes e.slot e hi)
  · intro i e hi
    have hname := hnames e ((getElem?_cells_eq_some_iff hp).mp hi).1
    rw [Mnemonic.toList_text] at hname
    exact (hcell i e hi).mpr hname

/--
**A listing can be pasted when its names have no quotes and no backslashes.**

In a table that a search returned, under labels that are identifiers, the first literal in the
line of an entry ends at the quote behind the name and spells the name, and the code is what
follows it. That is so for all entries exactly when no text that was searched for has a double
quote or a backslash.
-/
theorem pastes_iff {scheme : Scheme} {texts : List (String × UInt16)} {settings : SearchSettings}
    {t : MagicTable} (h : (search scheme texts settings).value = .ok t) {labels : SlotLabels}
    (hlabels : labels.Clear) :
    t.Pastes labels ↔ ∀ p ∈ texts, ∀ c ∈ p.1.toList, c ≠ '"' ∧ c ≠ '\\' := by
  rw [pastes_iff_entries (perfect_of_search h) hlabels, ← map_entries_of_search h,
    List.forall_mem_map]

/-- A service can be listed under the labels of a table of services. -/
theorem pastes_iff_service : ∃ t : MagicTable,
    (search ⟨1, true, true⟩ [("https", 443)] .preset).value = .ok t ∧
      t.Pastes ⟨"SERVICE", "UNKNOWN_SERVICE"⟩ := by
  have hok : (search ⟨1, true, true⟩ [("https", 443)] .preset).value.toOption.isSome = true := by
    decide +kernel
  obtain ⟨t, ht⟩ := exists_table_of_isSome hok
  exact ⟨t, ht, (pastes_iff ht (by decide)).mpr (by simp)⟩

/-- A name with a quote is accepted, but the literal in its line is another one. -/
theorem not_pastes_of_quote : SlotLabels.standard.Clear ∧ ∃ t : MagicTable,
    (search ⟨1, false, false⟩ [("a\"b", 1)] .preset).value = .ok t ∧ ¬ t.Pastes .standard := by
  have hclear : SlotLabels.standard.Clear := by decide
  have hok : (search ⟨1, false, false⟩ [("a\"b", 1)] .preset).value.toOption.isSome = true := by
    decide +kernel
  obtain ⟨t, ht⟩ := exists_table_of_isSome hok
  refine ⟨hclear, t, ht, ?_⟩
  intro hpastes
  have hnames := (pastes_iff_entries (perfect_of_search ht) hclear).mp hpastes
  have htexts : ∀ p ∈ [("a\"b", (1 : UInt16))], ∀ c ∈ p.1.toList, c ≠ '"' ∧ c ≠ '\\' := by
    rw [← map_entries_of_search ht, List.forall_mem_map]
    exact hnames
  exact absurd htexts (by simp)

end MagicTable

end PerfectKeys
