import Mathlib.Data.List.Perm.Basic
import PerfectKeys.Proofs.Occupancy
import PerfectKeys.Proofs.Repetition
import PerfectKeys.Proofs.Run.Operation

/-!
# Flags, cells and entries agree

A run computes the flag of an entry from the cells, not from the entries before it. What
ties the two together is an invariant: the cells taken are the keys of the entries, their
number is the number of entries that are no collisions, and an entry is a collision exactly
when its key stands earlier in the list, whatever the roles and flags there.

The invariant holds at the start and is kept when a mnemonic is added. Operations only ever
add mnemonics, so it holds after any of them, the failing ones included, and in the report.

For a report it means that the entries without a flag pick one entry for each key, the first
one that has it. The rest are the collisions, so their number is what the distinct keys leave.
-/

namespace PerfectKeys

/-! ## Flags and the keys in front of them -/

namespace Report

/-- An entry is flagged when an earlier one has its key. -/
def Flagged (r : Report) : Prop :=
  ∀ i e, r.entries[i]? = some e → (e.collision = true ↔ RepeatsAt (fun e => e.key) r.entries i)

/-- One more entry is flagged when one of those before it has its key. -/
theorem flagged_append {l : List Entry} {e : Entry} (h : (mk l).Flagged)
    (he : e.collision = true ↔ ∃ b ∈ l, b.key = e.key) : (mk (l ++ [e])).Flagged := by
  intro i e' he'
  dsimp only at he' ⊢
  -- flags before the new entry stay right, and there is no entry behind it
  rcases Nat.lt_trichotomy i l.length with hi | hi | hi
  · rw [List.getElem?_append_left hi] at he'
    rw [repeatsAt_append_of_lt hi]
    exact h i e' he'
  · subst hi
    have hlast : e' = e := by simpa using he'.symm
    rw [repeatsAt_append_self_iff, hlast]
    exact he
  · exact absurd (List.getElem?_eq_some_iff.mp he').1 (by simp; omega)

end Report

/-! ## The invariant -/

/-- Cells, flags and entries of a run that handled these mnemonics. -/
structure Run.Consistent (run : Run) (handled : List (Role × Mnemonic)) : Prop where
  /-- The entries are the mnemonics handled, in order and with their roles. -/
  entries_eq : (run.entries.map fun e => (e.role, e.mnemonic)) = handled
  /-- Every entry has the key of its mnemonic. -/
  key_eq : ∀ e ∈ run.entries, e.key = Key.of e.mnemonic
  /-- An entry is a collision when an earlier one has its key. -/
  collision_iff : ∀ i e, run.entries[i]? = some e →
    (e.collision = true ↔ RepeatsAt (fun e => e.key) run.entries i)
  /-- The cells taken are the keys of the entries. -/
  mem_occupied_iff : ∀ k, k ∈ run.occupied ↔ ∃ e ∈ run.entries, e.key = k
  /-- Each entry that is no collision took a cell. -/
  size_eq : run.occupied.size = (run.entries.filter (!·.collision)).length

theorem consistent_start : Run.start.Consistent [] where
  entries_eq := rfl
  key_eq := by intro e he; cases he
  collision_iff := by intro i e he; cases he
  mem_occupied_iff := by
    intro k
    refine ⟨fun hk => absurd hk (Occupancy.not_mem_empty k), fun hk => ?_⟩
    obtain ⟨e, he, _⟩ := hk
    cases he
  size_eq := rfl

/-- **Adding a mnemonic keeps the invariant.** -/
theorem consistent_afterAdd {run : Run} {handled : List (Role × Mnemonic)}
    (h : run.Consistent handled) (p : Role × Mnemonic) :
    (run.afterAdd p).Consistent (handled ++ [p]) := by
  rw [Run.afterAdd_eq]
  -- the new entry's flag is read off the cells, which are the keys of the entries
  have hflag : Key.of p.2 ∈ run.occupied ↔ ∃ e ∈ run.entries, e.key = Key.of p.2 :=
    h.mem_occupied_iff (Key.of p.2)
  refine ⟨?_, ?_, ?_, ?_, ?_⟩
  · show (run.entries ++ [_]).map _ = handled ++ [p]
    rw [List.map_append, h.entries_eq]
    rfl
  · intro e he
    rcases List.mem_append.mp he with he | he
    · exact h.key_eq e he
    · rw [List.mem_singleton.mp he]
  · exact Report.flagged_append h.collision_iff (decide_eq_true_iff.trans hflag)
  · intro k
    dsimp only
    rw [Occupancy.mem_insert_iff, h.mem_occupied_iff]
    refine ⟨fun hk => ?_, fun hk => ?_⟩
    · rcases hk with rfl | ⟨e, he, rfl⟩
      · exact ⟨_, List.mem_append_right _ (List.mem_singleton.mpr rfl), rfl⟩
      · exact ⟨e, List.mem_append_left _ he, rfl⟩
    · obtain ⟨e, he, rfl⟩ := hk
      rcases List.mem_append.mp he with he | he
      · exact Or.inr ⟨e, he, rfl⟩
      · rw [List.mem_singleton.mp he]
        exact Or.inl rfl
  · dsimp only
    rw [size_insert, List.filter_append, List.length_append, h.size_eq]
    by_cases hk : Key.of p.2 ∈ run.occupied
    · rw [if_pos hk]
      simp [hk]
    · rw [if_neg hk]
      simp [hk]

theorem consistent_addAll {run : Run} {handled : List (Role × Mnemonic)}
    (h : run.Consistent handled) (pairs : List (Role × Mnemonic)) :
    (run.addAll pairs).Consistent (handled ++ pairs) := by
  induction pairs generalizing run handled with
  | nil => rw [List.append_nil]; exact h
  | cons p pairs ih =>
      have hstep := ih (consistent_afterAdd h p)
      rw [List.append_assoc] at hstep
      exact hstep

/-! ## What the flags of a report say -/

namespace Report

variable {r : Report}

/-- Two accepted entries with one key are one entry: the later of two would be flagged. -/
theorem index_eq_of_accepted (h : r.Flagged) {i j : Nat} {a b : Entry}
    (ha : r.entries[i]? = some a) (hb : r.entries[j]? = some b) (hca : a.collision = false)
    (hcb : b.collision = false) (hkey : a.key = b.key) : i = j := by
  have later : ∀ {i j : Nat} {a b : Entry}, r.entries[i]? = some a → r.entries[j]? = some b →
      b.collision = false → a.key = b.key → ¬ i < j := by
    intro i j a b ha hb hcb hkey hij
    rw [(h j b hb).mpr ⟨i, a, b, hij, ha, hb, hkey⟩] at hcb
    cases hcb
  rcases Nat.lt_trichotomy i j with hij | hij | hij
  · exact absurd hij (later ha hb hcb hkey)
  · exact hij
  · exact absurd hij (later hb ha hca hkey.symm)

/-- The accepted entries have pairwise different keys. -/
theorem nodup_accepted (h : r.Flagged) : (r.accepted.map fun e => e.key).Nodup := by
  unfold accepted
  rw [List.nodup_iff_pairwise_ne, List.pairwise_map, List.pairwise_filter,
    List.pairwise_iff_getElem]
  intro i j hi hj hij hci hcj hkey
  rw [Bool.not_eq_eq_eq_not, Bool.not_true] at hci hcj
  have := index_eq_of_accepted h (List.getElem?_eq_getElem hi) (List.getElem?_eq_getElem hj)
    hci hcj hkey
  omega

/-- Every key is that of an accepted entry, at or before the place where it stands. -/
theorem exists_accepted (h : r.Flagged) {i : Nat} {e : Entry} (he : r.entries[i]? = some e) :
    ∃ j a, j ≤ i ∧ r.entries[j]? = some a ∧ a.collision = false ∧ a.key = e.key := by
  induction i using Nat.strongRecOn generalizing e with
  | ind i ih =>
    cases hc : e.collision with
    | false => exact ⟨i, e, Nat.le_refl i, he, hc, rfl⟩
    | true =>
        -- a flagged entry repeats an earlier one, whose own key is settled
        obtain ⟨j, a, b, hji, ha, hb, hkey⟩ := (h i e he).mp hc
        rw [he] at hb
        cases hb
        obtain ⟨k, c, hkj, hk, hcc, hck⟩ := ih j hji ha
        exact ⟨k, c, Nat.le_trans hkj (Nat.le_of_lt hji), hk, hcc, hck.trans hkey⟩

/-- A report is perfect when no key stands twice. -/
theorem isPerfect_iff (h : r.Flagged) :
    r.isPerfect = true ↔ (r.entries.map fun e => e.key).Nodup := by
  unfold isPerfect collisions
  rw [List.isEmpty_iff, List.filter_eq_nil_iff, nodup_map_iff_not_repeatsAt]
  refine ⟨fun hno i hi => ?_, fun hno e he hc => ?_⟩
  · obtain ⟨j, a, b, _, _, hb, _⟩ := id hi
    exact hno b (List.mem_of_getElem? hb) ((h i b hb).mpr hi)
  · obtain ⟨i, hi⟩ := List.getElem?_of_mem he
    exact hno i ((h i e hi).mp hc)

/-- Entries are accepted or flagged. -/
theorem collisions_append_accepted_perm (r : Report) :
    (r.collisions ++ r.accepted).Perm r.entries := List.filter_append_perm _ _

theorem collisionCount_add_length_accepted (r : Report) :
    r.collisionCount + r.accepted.length = r.length := by
  have h := r.collisions_append_accepted_perm.length_eq
  rwa [List.length_append] at h

/-- The keys of the accepted entries are all the keys. -/
theorem mem_keys_accepted_iff (h : r.Flagged) {k : Key} :
    k ∈ r.accepted.map (fun e => e.key) ↔ k ∈ r.entries.map fun e => e.key := by
  rw [List.mem_map, List.mem_map]
  refine ⟨fun hk => ?_, fun hk => ?_⟩
  · obtain ⟨e, he, rfl⟩ := hk
    exact ⟨e, (List.mem_filter.mp he).1, rfl⟩
  · obtain ⟨e, he, rfl⟩ := hk
    obtain ⟨i, hi⟩ := List.getElem?_of_mem he
    obtain ⟨j, a, _, ha, hca, hkey⟩ := exists_accepted h hi
    exact ⟨a, List.mem_filter.mpr ⟨List.mem_of_getElem? ha, by rw [hca]; rfl⟩, hkey⟩

/-- There are as many accepted entries as keys. -/
theorem length_accepted (h : r.Flagged) :
    r.accepted.length = (r.entries.map fun e => e.key).toFinset.card := by
  have hsame : (r.accepted.map fun e => e.key).toFinset
      = (r.entries.map fun e => e.key).toFinset := by
    ext k
    rw [List.mem_toFinset, List.mem_toFinset, mem_keys_accepted_iff h]
  rw [← hsame, List.toFinset_card_of_nodup (nodup_accepted h), List.length_map]

/-- The collisions are what the distinct keys leave of the entries. -/
theorem collisionCount_add_card (h : r.Flagged) :
    r.collisionCount + (r.entries.map fun e => e.key).toFinset.card = r.length := by
  rw [← length_accepted h]
  exact r.collisionCount_add_length_accepted

end Report

theorem consistent_performAll (ops : List Operation) :
    (Run.start.performAll ops).value.Consistent (ops.flatMap Operation.handled) := by
  rw [Run.value_performAll]
  exact consistent_addAll consistent_start _

/--
**Flags, cells and entries agree in every run.**

After any operations, some of which may have failed, the invariant holds of the run. In the
report that ends it, accepted entries have different keys, each entry's key is that of exactly
one accepted entry, which stands at or before it, and the collisions are counted by the
distinct keys.
-/
theorem run_flags_collisions (ops : List Operation) :
    let run := (Run.start.performAll ops).value
    let r := run.finish.value
    run.Consistent (ops.flatMap Operation.handled) ∧
      r.entries = run.entries ∧
      (r.accepted.map fun e => e.key).Nodup ∧
      (∀ (i : Nat) (e : Entry), r.entries[i]? = some e →
        ∃ (j : Nat) (a : Entry), j ≤ i ∧ r.entries[j]? = some a ∧ a.collision = false ∧
          a.key = e.key ∧
          ∀ (k : Nat) (b : Entry), r.entries[k]? = some b → b.collision = false →
            b.key = e.key → k = j) ∧
      (r.isPerfect = true ↔ (r.entries.map fun e => e.key).Nodup) ∧
      r.collisionCount + (r.entries.map fun e => e.key).toFinset.card = r.length := by
  intro run r
  have hc : run.Consistent (ops.flatMap Operation.handled) := consistent_performAll ops
  have hf : r.Flagged := hc.collision_iff
  refine ⟨hc, rfl, Report.nodup_accepted hf, ?_, Report.isPerfect_iff hf,
    Report.collisionCount_add_card hf⟩
  intro i e he
  obtain ⟨j, a, hji, ha, hca, hkey⟩ := Report.exists_accepted hf he
  refine ⟨j, a, hji, ha, hca, hkey, fun k b hb hcb hkb => ?_⟩
  exact Report.index_eq_of_accepted hf hb ha hcb hca (hkb.trans hkey.symm)

end PerfectKeys
