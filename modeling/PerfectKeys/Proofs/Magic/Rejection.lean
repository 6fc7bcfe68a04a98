import PerfectKeys.Proofs.Magic.Answer
import PerfectKeys.Proofs.Magic.Hash

/-!
# Names that are refused before the search

Before any magic value is tried, a list of names is refused when there are not enough slots for
it, or when a name in it counts as the same as another. Neither refusal is premature: more names
than slots cannot all have slots of their own, and names that count as the same have one slot
under every magic value. The other way round, names that any magic value keeps apart pass the
examination, so a search for them depends on its range only.
-/

namespace PerfectKeys

/-- The names were read, and refused before any magic value was tried. -/
inductive SearchError.RefusesNames : SearchError → Prop where
  | tooMany {names slots : Nat} : RefusesNames (.tooManyNames names slots)
  | duplicate {index : Nat} : RefusesNames (.duplicateName index)

namespace Scheme

section Names

variable {s : Scheme} {names : List CodedName} {magic : UInt64}

/-- Slots of their own are as many as the names. -/
theorem length_le_of_keepsApart (h : s.KeepsApart names magic) : names.length ≤ s.slots := by
  have hslots : names.map (fun n => s.slot magic n.name) ⊆ List.range s.slots := by
    intro slot hslot
    obtain ⟨n, -, rfl⟩ := List.mem_map.mp hslot
    exact List.mem_range.mpr (s.slot_lt magic n.name)
  have hle := (List.subperm_of_subset h hslots).length_le
  rwa [List.length_map, List.length_range] at hle

/-- Names that count as the same are never kept apart. -/
theorem not_duplicates_of_keepsApart (h : s.KeepsApart names magic) (i : Nat) :
    ¬ s.Duplicates (names.map CodedName.given) i := by
  intro hdup
  obtain ⟨j, a, b, hji, ha, hb, hmatch⟩ := duplicates_given_iff.mp hdup
  have hslot : s.slot magic a.name = s.slot magic b.name := slot_eq_of_matches hmatch magic
  exact nodup_map_iff_not_repeatsAt.mp h i ⟨j, a, b, hji, ha, hb, hslot⟩

theorem exists_slot_eq_of_not_keepsApart (h : ¬ s.KeepsApart names magic) :
    ∃ (i j : Nat) (a b : CodedName), i ≠ j ∧ names[i]? = some a ∧ names[j]? = some b ∧
      s.slot magic a.name = s.slot magic b.name := by
  unfold KeepsApart at h
  rw [nodup_map_iff_not_repeatsAt] at h
  push Not at h
  obtain ⟨j, i, a, b, hij, ha, hb, hslot⟩ := h
  exact ⟨i, j, a, b, Nat.ne_of_lt hij, ha, hb, hslot⟩

end Names

end Scheme

section Searches

variable {scheme : Scheme} {names : List CodedName} {settings : SearchSettings} {magic : UInt64}

/-- Names that some magic value keeps apart are searched for: only the range can fail. -/
theorem value_search_of_keepsApart (h : scheme.KeepsApart names magic) :
    (∃ t, (search scheme (names.map CodedName.given) settings).value = .ok t ∧
        IsLeast {m | settings.Allows m ∧ scheme.KeepsApart names m} t.magic) ∨
      (search scheme (names.map CodedName.given) settings).value
          = .error (.exhausted settings.start settings.last) ∧
        ∀ m, settings.Allows m → ¬ scheme.KeepsApart names m := by
  rw [value_search_of_distinct (Scheme.length_le_of_keepsApart h)
    (Scheme.not_duplicates_of_keepsApart h)]
  cases hfind : settings.candidates.find? fun m => decide (scheme.KeepsApart names m) with
  | some magic => exact Or.inl ⟨_, rfl, find?_keepsApart_eq_some_iff.mp hfind⟩
  | none => exact Or.inr ⟨rfl, find?_keepsApart_eq_none_iff.mp hfind⟩

/-- **Names that are refused are kept apart by no magic value.** -/
theorem not_keepsApart_of_refusesNames {e : SearchError}
    (h : (search scheme (names.map CodedName.given) settings).value = .error e)
    (he : e.RefusesNames) (magic : UInt64) : ¬ scheme.KeepsApart names magic := by
  intro happ
  rcases value_search_of_keepsApart happ with ⟨t, ht, -⟩ | ⟨hexhausted, -⟩
  · rw [ht] at h
    cases h
  · rw [hexhausted] at h
    cases h
    cases he

end Searches

/--
**Every refusal is justified.**

Where a search refuses names as too many or as duplicates, two of them, at different positions,
share a slot under every magic value there is, so no search over any range finds a table.
-/
theorem refusal_justified {scheme : Scheme} {names : List CodedName} {settings : SearchSettings}
    {e : SearchError} (h : (search scheme (names.map CodedName.given) settings).value = .error e)
    (he : e.RefusesNames) :
    (∀ magic : UInt64, ∃ (i j : Nat) (a b : CodedName), i ≠ j ∧
      names[i]? = some a ∧ names[j]? = some b ∧
      scheme.slot magic a.name = scheme.slot magic b.name) ∧
    ∀ (other : SearchSettings) (t : MagicTable),
      (search scheme (names.map CodedName.given) other).value ≠ .ok t := by
  have hnone := not_keepsApart_of_refusesNames h he
  refine ⟨fun magic => Scheme.exists_slot_eq_of_not_keepsApart (hnone magic), ?_⟩
  intro other t ht
  obtain ⟨names', hgiven, -, -, -, hleast⟩ := exists_names_of_search ht
  obtain rfl := (List.map_injective_iff.mpr given_injective) hgiven
  exact hnone t.magic hleast.1.2

/-- Two services that differ in case only are duplicates, and any two are too many for one slot. -/
theorem refusal_justified_smtp :
    let a : CodedName := ⟨⟨octetsOf "smtp", by decide +kernel, by decide +kernel⟩, 25⟩
    let b : CodedName := ⟨⟨octetsOf "SMTP", by decide +kernel, by decide +kernel⟩, 25⟩
    let folding : Scheme := ⟨6, true, true⟩
    let narrow : Scheme := ⟨0, false, true⟩
    (search folding [("smtp", 25), ("SMTP", 25)] .preset).value = .error (.duplicateName 1) ∧
      (search narrow [("smtp", 25), ("SMTP", 25)] .preset).value = .error (.tooManyNames 2 1) ∧
      ∀ scheme ∈ [folding, narrow],
        (∀ magic : UInt64, ∃ (i j : Nat) (c d : CodedName), i ≠ j ∧
          [a, b][i]? = some c ∧ [a, b][j]? = some d ∧
          scheme.slot magic c.name = scheme.slot magic d.name) ∧
        ∀ (other : SearchSettings) (t : MagicTable),
          (search scheme [("smtp", 25), ("SMTP", 25)] other).value ≠ .ok t := by
  intro a b folding narrow
  have hgiven : [a, b].map CodedName.given = [("smtp", 25), ("SMTP", 25)] := by decide +kernel
  have hduplicate : (search folding ([a, b].map CodedName.given) .preset).value
      = .error (.duplicateName 1) := by decide +kernel
  have hmany : (search narrow ([a, b].map CodedName.given) .preset).value
      = .error (.tooManyNames 2 1) := by decide +kernel
  rw [← hgiven]
  refine ⟨hduplicate, hmany, fun scheme hscheme => ?_⟩
  rcases List.mem_cons.mp hscheme with rfl | hscheme
  · exact refusal_justified hduplicate .duplicate
  · obtain rfl := List.mem_singleton.mp hscheme
    exact refusal_justified hmany .tooMany

end PerfectKeys
