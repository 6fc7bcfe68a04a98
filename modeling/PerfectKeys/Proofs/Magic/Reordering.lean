import PerfectKeys.Proofs.Magic.Lookup
import PerfectKeys.Proofs.Rearrangement

/-!
# The order of the names does not matter

A search goes through the names from the left and stops early, a table writes its entries
into the cells one after the other, and a lookup takes the first entry that fits. None of
this depends on the order. Whether all texts are names, how many there are, whether two of
them count as the same and which magic values keep them apart are questions about the names
as a whole. And in a perfect table no two entries meet, neither in a cell nor in a lookup.

What does depend on the order is what refers to a position: which of several texts that are
no names is reported, and where a duplicate is found. The entries of a table stand in the
order of the names that were given.
-/

namespace PerfectKeys

/-! ## Names in another order -/

/-- Texts that give names do so in any order. -/
theorem exists_given_of_perm {names : List CodedName} {texts : List (String × UInt16)}
    (h : texts.Perm (names.map CodedName.given)) :
    ∃ names' : List CodedName, texts = names'.map CodedName.given ∧ names'.Perm names := by
  rcases given_or_error texts with ⟨names', rfl⟩ | ⟨before, text, code, after, e, rfl, he⟩
  · exact ⟨names', rfl, (List.map_perm_map_iff given_injective).mp h⟩
  · -- the text that is no name would be among those that give names
    have hmem : (text, code) ∈ names.map CodedName.given :=
      h.mem_iff.mp (List.mem_append_right _ List.mem_cons_self)
    exact absurd he (ofString_ne_error_of_mem hmem e)

section Names

variable {s : Scheme} {names names' : List CodedName}

theorem forall_not_duplicates_iff : (∀ i, ¬ s.Duplicates (names.map CodedName.given) i) ↔
    (names.map fun n => s.spelling n.name).Nodup := by
  rw [nodup_map_iff_not_repeatsAt]
  exact forall_congr' fun i => not_congr Scheme.duplicates_given_iff

theorem forall_not_duplicates_of_perm (h : names'.Perm names)
    (hdistinct : ∀ i, ¬ s.Duplicates (names.map CodedName.given) i) :
    ∀ i, ¬ s.Duplicates (names'.map CodedName.given) i :=
  forall_not_duplicates_iff.mpr
    ((h.map _).nodup_iff.mpr (forall_not_duplicates_iff.mp hdistinct))

theorem keepsApart_iff_of_perm (h : names'.Perm names) (magic : UInt64) :
    s.KeepsApart names' magic ↔ s.KeepsApart names magic := (h.map _).nodup_iff

end Names

/-! ## Tables with the same entries -/

namespace MagicTable

section Tables

variable {t t' : MagicTable}

theorem find?_slot_eq_of_perm (h : t.Perfect) (h' : t'.Perfect) (hp : t'.entries.Perm t.entries)
    (i : Nat) : (t.entries.find? fun e => e.slot = i) = t'.entries.find? fun e => e.slot = i := by
  refine Option.ext fun e => ?_
  rw [find?_slot_eq_some_iff h, find?_slot_eq_some_iff h', hp.mem_iff]

theorem cells_eq_of_perm (h : t.Perfect) (h' : t'.Perfect) (hs : t.scheme = t'.scheme)
    (hp : t'.entries.Perm t.entries) : t.cells = t'.cells := by
  refine List.ext_getElem? fun i => ?_
  rcases Nat.lt_or_ge i t.scheme.slots with hi | hi
  · rw [getElem?_cells h hi, getElem?_cells h' (hs ▸ hi), find?_slot_eq_of_perm h h' hp]
  · have hlen : t.cells.length ≤ i := by rwa [length_cells]
    have hlen' : t'.cells.length ≤ i := by rwa [length_cells, ← hs]
    rw [List.getElem?_eq_none hlen, List.getElem?_eq_none hlen']

theorem lookup_eq_of_perm (h : t.Perfect) (h' : t'.Perfect) (hs : t.scheme = t'.scheme)
    (hp : t'.entries.Perm t.entries) (text : String) : t.lookup text = t'.lookup text := by
  refine Option.ext fun e => ?_
  rw [lookup_eq_some_iff h, lookup_eq_some_iff h', hp.mem_iff, hs]

end Tables

end MagicTable

/-! ## Searches -/

/-- The answers are the same up to the order of the names: errors are of one kind, tables have
the same cells and lookups, and their entries stand in the order of the names. -/
inductive SameUpTo {n : Nat} (σ : Equiv.Perm (Fin n)) :
    Except SearchError MagicTable → Except SearchError MagicTable → Prop where
  | mnemonic {e e' : MnemonicError} : SameUpTo σ (.error (.mnemonic e)) (.error (.mnemonic e'))
  | tooManyNames {names slots : Nat} :
      SameUpTo σ (.error (.tooManyNames names slots)) (.error (.tooManyNames names slots))
  | duplicateName {i j : Nat} :
      SameUpTo σ (.error (.duplicateName i)) (.error (.duplicateName j))
  | exhausted {start last : UInt64} :
      SameUpTo σ (.error (.exhausted start last)) (.error (.exhausted start last))
  | found {t t' : MagicTable} :
      t.magic = t'.magic → t.cells = t'.cells →
      (∀ labels, t.slotListing labels = t'.slotListing labels) →
      (∀ text, t.lookup text = t'.lookup text) →
      t.entries.length = n → t'.entries.length = n →
      (∀ i : Fin n, t'.entries[i.val]? = t.entries[(σ i).val]?) →
      SameUpTo σ (.ok t) (.ok t')

theorem sameUpTo_ofNames {scheme : Scheme} {magic : UInt64} {names names' : List CodedName}
    {n : Nat} {σ : Equiv.Perm (Fin n)} (hapart : scheme.KeepsApart names magic)
    (hn : names.length = n) (hp : names'.Perm names)
    (hσ : ∀ i : Fin n, names'[i.val]? = names[(σ i).val]?) :
    SameUpTo σ (.ok (.ofNames scheme magic names)) (.ok (.ofNames scheme magic names')) := by
  have h := MagicTable.perfect_ofNames hapart
  have h' := MagicTable.perfect_ofNames ((keepsApart_iff_of_perm hp magic).mpr hapart)
  have hentries : (MagicTable.ofNames scheme magic names').entries.Perm
      (MagicTable.ofNames scheme magic names).entries := hp.map _
  have hcells := MagicTable.cells_eq_of_perm h h' rfl hentries
  refine .found rfl hcells (fun labels => ?_)
    (MagicTable.lookup_eq_of_perm h h' rfl hentries) ((List.length_map _).trans hn)
    ((List.length_map _).trans (hp.length_eq.trans hn)) fun i => ?_
  · unfold MagicTable.slotListing
    rw [hcells]
  · unfold MagicTable.ofNames
    rw [List.getElem?_map, List.getElem?_map, hσ]

section Orders

variable {scheme : Scheme} {settings : SearchSettings}

/-- Where the texts are names, the search answers the same in any order of them. -/
theorem sameUpTo_search_given {names names' : List CodedName} {n : Nat}
    {σ : Equiv.Perm (Fin n)} (hn : names.length = n) (hp : names'.Perm names)
    (hσ : ∀ i : Fin n, names'[i.val]? = names[(σ i).val]?) :
    SameUpTo σ (search scheme (names.map CodedName.given) settings).value
      (search scheme (names'.map CodedName.given) settings).value := by
  have hlen := hp.length_eq
  rcases Nat.lt_or_ge scheme.slots names.length with hmany | hfit
  · rw [(Answers.tooMany hmany).value_eq, (Answers.tooMany (by rwa [hlen])).value_eq, hlen]
    exact .tooManyNames
  have hfit' : names'.length ≤ scheme.slots := by rwa [hlen]
  by_cases hdistinct : ∀ i, ¬ scheme.Duplicates (names.map CodedName.given) i
  · have hdistinct' := forall_not_duplicates_of_perm hp hdistinct
    have hsame : (fun m => decide (scheme.KeepsApart names' m))
        = fun m => decide (scheme.KeepsApart names m) := by
      funext m
      rw [decide_eq_decide]
      exact keepsApart_iff_of_perm hp m
    rw [value_search_of_distinct hfit hdistinct, value_search_of_distinct hfit' hdistinct', hsame]
    cases hfind : settings.candidates.find? fun m => decide (scheme.KeepsApart names m) with
    | none => exact .exhausted
    | some magic =>
        exact sameUpTo_ofNames (find?_keepsApart_eq_some_iff.mp hfind).1.2 hn hp hσ
  · have hdistinct' : ¬ ∀ i, ¬ scheme.Duplicates (names'.map CodedName.given) i :=
      fun h => hdistinct (forall_not_duplicates_of_perm hp.symm h)
    rw [← Scheme.firstDuplicate?_eq_none_iff] at hdistinct hdistinct'
    obtain ⟨i, hi⟩ := Option.ne_none_iff_exists'.mp hdistinct
    obtain ⟨j, hj⟩ := Option.ne_none_iff_exists'.mp hdistinct'
    rw [(Answers.duplicate hfit (Scheme.firstDuplicate?_eq_some_iff.mp hi)).value_eq,
      (Answers.duplicate hfit' (Scheme.firstDuplicate?_eq_some_iff.mp hj)).value_eq]
    exact .duplicateName

/-- Texts that are not all names are refused in any order. -/
theorem exists_value_search_eq_mnemonic {texts : List (String × UInt16)} {text : String}
    {code : UInt16} {e : MnemonicError} (hmem : (text, code) ∈ texts)
    (he : Mnemonic.ofString text = .error e) :
    ∃ e', (search scheme texts settings).value = .error (.mnemonic e') := by
  rcases given_or_error texts with ⟨names, rfl⟩ | ⟨before, text', code', after, e', rfl, he'⟩
  · exact absurd he (ofString_ne_error_of_mem hmem e)
  · exact ⟨e', (Answers.noName he').value_eq⟩

theorem sameUpTo_search_of_perm {texts texts' : List (String × UInt16)} {n : Nat}
    {σ : Equiv.Perm (Fin n)} (hn : texts.length = n) (hp : texts'.Perm texts)
    (hσ : ∀ i : Fin n, texts'[i.val]? = texts[(σ i).val]?) :
    SameUpTo σ (search scheme texts settings).value (search scheme texts' settings).value := by
  rcases given_or_error texts with ⟨names, rfl⟩ | ⟨before, text, code, after, e, rfl, he⟩
  · obtain ⟨names', rfl, hperm⟩ := exists_given_of_perm hp
    refine sameUpTo_search_given ((List.length_map _).symm.trans hn) hperm fun i => ?_
    have hi := hσ i
    rw [List.getElem?_map, List.getElem?_map] at hi
    exact Option.map_injective given_injective hi
  · have hmem : (text, code) ∈ before.map CodedName.given ++ (text, code) :: after :=
      List.mem_append_right _ List.mem_cons_self
    obtain ⟨e1, h1⟩ := exists_value_search_eq_mnemonic hmem he
    obtain ⟨e2, h2⟩ := exists_value_search_eq_mnemonic (hp.mem_iff.mpr hmem) he
    rw [h1, h2]
    exact .mnemonic

end Orders

/--
**The order of the names does not matter to a search.**

Rearranging the texts leaves the kind of the answer, the numbers of an error that are no
positions, the magic value, the cells, the slot listing and every lookup as they are, and
rearranges the entries in the same way.
-/
theorem search_rearrange (scheme : Scheme) (settings : SearchSettings)
    (texts : List (String × UInt16)) (σ : Equiv.Perm (Fin texts.length)) :
    SameUpTo σ (search scheme texts settings).value
      (search scheme (rearrange texts σ) settings).value :=
  sameUpTo_search_of_perm rfl (perm_rearrange texts σ) (getElem?_rearrange texts σ)

end PerfectKeys
