import PerfectKeys.Proofs.Magic.Candidates
import PerfectKeys.Proofs.Magic.Names
import PerfectKeys.Proofs.Repetition

/-!
# What a search answers

The rules are tried in this order, and the first that applies gives the answer:

* a text that is no name is reported, the first such text with its error;
* more names than slots do not fit;
* a name that counts as the same as an earlier one is a duplicate, reported by the
  least position at which that happens;
* the least magic value in range that sends the names to distinct slots gives the table;
* else the range is exhausted, and its ends are reported.

`Answers` states the rules without a search: in terms of the texts, their positions and
the slots of the names. Exactly one rule applies to every list of texts, and the search
answers by it.
-/

namespace PerfectKeys

namespace Scheme

/-- The text at this position counts as the same as an earlier one. -/
def Duplicates (s : Scheme) (texts : List (String × UInt16)) (i : Nat) : Prop :=
  ∃ j a b, j < i ∧ texts[j]? = some a ∧ texts[i]? = some b ∧ s.Equates a.1 b.1

/-- Names at different positions have different slots under this magic value. -/
def KeepsApart (s : Scheme) (names : List CodedName) (magic : UInt64) : Prop :=
  (names.map fun n => s.slot magic n.name).Nodup

instance (s : Scheme) (names : List CodedName) (magic : UInt64) :
    Decidable (s.KeepsApart names magic) := List.nodupDecidable _

end Scheme

/-- What a search for these texts answers. -/
inductive Answers (scheme : Scheme) (settings : SearchSettings) :
    List (String × UInt16) → Except SearchError MagicTable → Prop where
  /-- The first text that is no name. -/
  | noName {before : List CodedName} {text : String} {code : UInt16}
      {after : List (String × UInt16)} {e : MnemonicError} :
      Mnemonic.ofString text = .error e →
      Answers scheme settings (before.map CodedName.given ++ (text, code) :: after)
        (.error (.mnemonic e))
  /-- All texts are names, but there are not enough slots. -/
  | tooMany {names : List CodedName} :
      scheme.slots < names.length →
      Answers scheme settings (names.map CodedName.given)
        (.error (.tooManyNames names.length scheme.slots))
  /-- The names would fit, but one of them comes twice. -/
  | duplicate {names : List CodedName} {i : Nat} :
      names.length ≤ scheme.slots →
      IsLeast {i | scheme.Duplicates (names.map CodedName.given) i} i →
      Answers scheme settings (names.map CodedName.given) (.error (.duplicateName i))
  /-- The names are distinct, and some magic value in range keeps them apart. -/
  | found {names : List CodedName} {magic : UInt64} :
      names.length ≤ scheme.slots →
      (∀ i, ¬ scheme.Duplicates (names.map CodedName.given) i) →
      IsLeast {m | settings.Allows m ∧ scheme.KeepsApart names m} magic →
      Answers scheme settings (names.map CodedName.given)
        (.ok ⟨scheme, magic, names.map fun n => ⟨n.name, n.code, scheme.slot magic n.name⟩⟩)
  /-- The names are distinct, but no magic value in range keeps them apart. -/
  | exhausted {names : List CodedName} {last : UInt64} :
      names.length ≤ scheme.slots →
      (∀ i, ¬ scheme.Duplicates (names.map CodedName.given) i) →
      (∀ m, settings.Allows m → ¬ scheme.KeepsApart names m) →
      last.toNat = min (settings.start.toNat + settings.limit.toNat - 1) (UInt64.size - 1) →
      Answers scheme settings (names.map CodedName.given)
        (.error (.exhausted settings.start last))

/-! ## The examination of the names -/

namespace Scheme

theorem duplicates_given_iff {s : Scheme} {names : List CodedName} {i : Nat} :
    s.Duplicates (names.map CodedName.given) i ↔
      RepeatsAt (fun n => s.spelling n.name) names i := by
  have hmatches (a b : CodedName) :
      s.Equates a.given.1 b.given.1 ↔ s.spelling a.name = s.spelling b.name :=
    matches_iff_equates.symm
  refine (exists_earlier_map_iff (R := fun p q : String × UInt16 => s.Equates p.1 q.1)).trans ?_
  simp only [hmatches]
  exact Iff.rfl

/-- The positions that the names are paired with tell none of them apart. -/
theorem repeatsAt_zipIdx_iff {s : Scheme} {names : List CodedName} {i : Nat} :
    RepeatsAt (fun p : CodedName × Nat => s.spelling p.1.name) names.zipIdx i ↔
      RepeatsAt (fun n => s.spelling n.name) names i := by
  have hfst : names.zipIdx.map Prod.fst = names := List.zipIdx_map_fst 0 names
  have hmap : RepeatsAt (fun n => s.spelling n.name) (names.zipIdx.map Prod.fst) i ↔
      RepeatsAt (fun p : CodedName × Nat => s.spelling p.1.name) names.zipIdx i :=
    repeatsAt_map_iff
  rw [← hmap, hfst]

theorem firstDuplicate?_eq_some_iff {s : Scheme} {names : List CodedName} {i : Nat} :
    s.firstDuplicate? names = some i ↔
      IsLeast {i | s.Duplicates (names.map CodedName.given) i} i := by
  have hset : {i | s.Duplicates (names.map CodedName.given) i} =
      {i | RepeatsAt (fun p : CodedName × Nat => s.spelling p.1.name) names.zipIdx i} :=
    Set.ext fun i => duplicates_given_iff.trans repeatsAt_zipIdx_iff.symm
  rw [hset, firstDuplicate?, Option.map_eq_some_iff]
  refine ⟨fun h => ?_, fun h => ?_⟩
  · obtain ⟨p, hp, rfl⟩ := h
    obtain ⟨i, hi, hleast⟩ := firstRepeat?_eq_some_iff.mp hp
    rw [List.getElem?_zipIdx] at hi
    obtain ⟨a, -, rfl⟩ := Option.map_eq_some_iff.mp hi
    rw [Nat.zero_add]
    exact hleast
  · -- the element there carries its position with it
    obtain ⟨_, _, b, _, _, hb, _⟩ := h.1
    have hi : names.zipIdx[i]? = some b := hb
    refine ⟨b, firstRepeat?_eq_some_iff.mpr ⟨i, hi, h⟩, ?_⟩
    rw [List.getElem?_zipIdx] at hi
    obtain ⟨a, -, rfl⟩ := Option.map_eq_some_iff.mp hi
    exact Nat.zero_add i

theorem firstDuplicate?_eq_none_iff {s : Scheme} {names : List CodedName} :
    s.firstDuplicate? names = none ↔ ∀ i, ¬ s.Duplicates (names.map CodedName.given) i := by
  rw [firstDuplicate?, Option.map_eq_none_iff, firstRepeat?_eq_none_iff,
    nodup_map_iff_not_repeatsAt]
  refine forall_congr' fun i => not_congr ?_
  rw [repeatsAt_zipIdx_iff, duplicates_given_iff]

theorem firstClash?_eq_none_iff {s : Scheme} {names : List CodedName} {magic : UInt64} :
    s.firstClash? (names.map fun n => (n.name, s.digest n.name)) magic = none ↔
      s.KeepsApart names magic := by
  rw [firstClash?, Option.map_eq_none_iff, firstRepeat?_eq_none_iff, List.map_map]
  rfl

theorem examine_of_error {s : Scheme} {texts : List (String × UInt16)} {e : MnemonicError}
    (h : readNames texts = .error e) : s.examine texts = .error (.mnemonic e) := by
  rw [examine, h]
  rfl

theorem examine_map_given (s : Scheme) (names : List CodedName) :
    s.examine (names.map CodedName.given) =
      if s.slots < names.length then .error (.tooManyNames names.length s.slots)
      else match s.firstDuplicate? names with
        | some i => .error (.duplicateName i)
        | none => .ok names := by
  rw [examine, readNames_map_given]
  by_cases h : s.slots < names.length
  · rw [if_pos h]
    dsimp only [Except.mapError, bind, Except.bind]
    rw [if_pos h]
    rfl
  · rw [if_neg h]
    dsimp only [Except.mapError, bind, Except.bind]
    rw [if_neg h]
    cases s.firstDuplicate? names with
    | none => rfl
    | some i => rfl

/-- The examination of the names does not depend on a range. -/
theorem examine_ne_exhausted (s : Scheme) (texts : List (String × UInt16)) (start last : UInt64) :
    s.examine texts ≠ .error (.exhausted start last) := by
  rcases given_or_error texts with ⟨names, rfl⟩ | ⟨before, text, code, after, e, rfl, he⟩
  · rw [examine_map_given]
    split
    · simp
    · cases s.firstDuplicate? names with
      | none => simp
      | some i => simp
  · rw [examine_of_error (readNames_append_cons he)]
    simp

end Scheme

/-! ## The search by its rules -/

/-- The examination is followed by a look for the first candidate that keeps the names apart. -/
theorem value_search (scheme : Scheme) (texts : List (String × UInt16))
    (settings : SearchSettings) :
    (search scheme texts settings).value =
      match scheme.examine texts with
      | .error e => .error e
      | .ok names =>
          match settings.candidates.find? fun m => decide (scheme.KeepsApart names m) with
          | some magic => .ok (.ofNames scheme magic names)
          | none => .error (.exhausted settings.start settings.last) := by
  unfold search
  cases scheme.examine texts with
  | error e => rfl
  | ok names =>
      have hfound : (tryFrom
          (scheme.firstClash? (names.map fun n => (n.name, scheme.digest n.name)))
          settings.count settings.start []).found
          = settings.candidates.find? fun m => decide (scheme.KeepsApart names m) := by
        rw [found_tryFrom]
        refine congrArg (fun p => settings.candidates.find? p) (funext fun m => ?_)
        rw [Bool.eq_iff_iff, Option.isNone_iff_eq_none, Scheme.firstClash?_eq_none_iff,
          decide_eq_true_iff]
      dsimp only
      rw [Logged.value_bind, hfound]
      cases settings.candidates.find? fun m => decide (scheme.KeepsApart names m) with
      | none => rfl
      | some magic => rfl

section Rules

variable {scheme : Scheme} {texts : List (String × UInt16)} {settings : SearchSettings}
  {r : Except SearchError MagicTable}

/-- Distinct names that fit pass the examination. -/
theorem examine_eq_ok {names : List CodedName} (hfit : names.length ≤ scheme.slots)
    (hdistinct : ∀ i, ¬ scheme.Duplicates (names.map CodedName.given) i) :
    scheme.examine (names.map CodedName.given) = .ok names := by
  rw [Scheme.examine_map_given, if_neg (Nat.not_lt.mpr hfit),
    Scheme.firstDuplicate?_eq_none_iff.mpr hdistinct]

/-- For distinct names that fit, the candidates alone decide the answer. -/
theorem value_search_of_distinct {names : List CodedName} (hfit : names.length ≤ scheme.slots)
    (hdistinct : ∀ i, ¬ scheme.Duplicates (names.map CodedName.given) i) :
    (search scheme (names.map CodedName.given) settings).value =
      match settings.candidates.find? fun m => decide (scheme.KeepsApart names m) with
      | some magic => .ok (.ofNames scheme magic names)
      | none => .error (.exhausted settings.start settings.last) := by
  rw [value_search, examine_eq_ok hfit hdistinct]

theorem find?_keepsApart_eq_some_iff {names : List CodedName} {magic : UInt64} :
    (settings.candidates.find? fun m => decide (scheme.KeepsApart names m)) = some magic ↔
      IsLeast {m | settings.Allows m ∧ scheme.KeepsApart names m} magic := by
  simp only [SearchSettings.find?_candidates_eq_some_iff, decide_eq_true_eq]

theorem find?_keepsApart_eq_none_iff {names : List CodedName} :
    (settings.candidates.find? fun m => decide (scheme.KeepsApart names m)) = none ↔
      ∀ m, settings.Allows m → ¬ scheme.KeepsApart names m := by
  simp only [List.find?_eq_none, SearchSettings.mem_candidates_iff, decide_eq_true_eq]

/-- Distinct names that fit get a table when some candidate keeps them apart. -/
theorem exists_table_iff {names : List CodedName} (hfit : names.length ≤ scheme.slots)
    (hdistinct : ∀ i, ¬ scheme.Duplicates (names.map CodedName.given) i) :
    (∃ t, (search scheme (names.map CodedName.given) settings).value = .ok t
        ∧ scheme.KeepsApart names t.magic) ↔
      ∃ m, settings.Allows m ∧ scheme.KeepsApart names m := by
  rw [value_search_of_distinct hfit hdistinct]
  cases hfind : settings.candidates.find? fun m => decide (scheme.KeepsApart names m) with
  | none =>
      have hno := find?_keepsApart_eq_none_iff.mp hfind
      refine ⟨fun h => ?_, fun h => ?_⟩
      · obtain ⟨t, ht, _⟩ := h
        cases ht
      · obtain ⟨m, hm, happ⟩ := h
        exact absurd happ (hno m hm)
  | some magic =>
      have hleast := find?_keepsApart_eq_some_iff.mp hfind
      exact ⟨fun _ => ⟨magic, hleast.1⟩, fun _ => ⟨_, rfl, hleast.1.2⟩⟩

/-- Distinct names that fit exhaust the range when no candidate keeps them apart. -/
theorem exists_exhausted_iff {names : List CodedName} (hfit : names.length ≤ scheme.slots)
    (hdistinct : ∀ i, ¬ scheme.Duplicates (names.map CodedName.given) i) :
    (∃ a b, (search scheme (names.map CodedName.given) settings).value
        = .error (.exhausted a b)) ↔
      ∀ m, settings.Allows m → ¬ scheme.KeepsApart names m := by
  rw [value_search_of_distinct hfit hdistinct]
  cases hfind : settings.candidates.find? fun m => decide (scheme.KeepsApart names m) with
  | none =>
      have hno := find?_keepsApart_eq_none_iff.mp hfind
      exact ⟨fun _ => hno, fun _ => ⟨_, _, rfl⟩⟩
  | some magic =>
      have hleast := find?_keepsApart_eq_some_iff.mp hfind
      refine ⟨fun h => ?_, fun h => absurd hleast.1.2 (h magic hleast.1.1)⟩
      obtain ⟨a, b, hab⟩ := h
      cases hab

/-- The search answers by any rule that applies. -/
theorem Answers.value_eq (h : Answers scheme settings texts r) :
    (search scheme texts settings).value = r := by
  cases h with
  | noName he => rw [value_search, Scheme.examine_of_error (readNames_append_cons he)]
  | tooMany hfit => rw [value_search, Scheme.examine_map_given, if_pos hfit]
  | duplicate hfit hi =>
      rw [value_search, Scheme.examine_map_given, if_neg (Nat.not_lt.mpr hfit),
        Scheme.firstDuplicate?_eq_some_iff.mpr hi]
  | found hfit hdistinct hm =>
      rw [value_search_of_distinct hfit hdistinct, find?_keepsApart_eq_some_iff.mpr hm]
      rfl
  | exhausted hfit hdistinct hnone hlast =>
      have hend := UInt64.toNat_inj.mp (hlast.trans settings.toNat_last.symm)
      rw [value_search_of_distinct hfit hdistinct, find?_keepsApart_eq_none_iff.mpr hnone, hend]

/-- Some rule applies. -/
theorem exists_answers (scheme : Scheme) (texts : List (String × UInt16))
    (settings : SearchSettings) : ∃ r, Answers scheme settings texts r := by
  -- the rules are tried in their order, so each case knows that the ones before it failed
  rcases given_or_error texts with ⟨names, rfl⟩ | ⟨before, text, code, after, e, rfl, he⟩
  · by_cases hfit : scheme.slots < names.length
    · exact ⟨_, .tooMany hfit⟩
    · have hfit := Nat.le_of_not_lt hfit
      cases hdup : scheme.firstDuplicate? names with
      | some i => exact ⟨_, .duplicate hfit (Scheme.firstDuplicate?_eq_some_iff.mp hdup)⟩
      | none =>
          have hdistinct := Scheme.firstDuplicate?_eq_none_iff.mp hdup
          cases hfind : settings.candidates.find? fun m => decide (scheme.KeepsApart names m) with
          | some magic => exact ⟨_, .found hfit hdistinct (find?_keepsApart_eq_some_iff.mp hfind)⟩
          | none =>
              exact ⟨_, .exhausted hfit hdistinct (find?_keepsApart_eq_none_iff.mp hfind)
                settings.toNat_last⟩
  · exact ⟨_, .noName he⟩

theorem answers_search (scheme : Scheme) (texts : List (String × UInt16))
    (settings : SearchSettings) :
    Answers scheme settings texts (search scheme texts settings).value := by
  obtain ⟨r, hr⟩ := exists_answers scheme texts settings
  rw [hr.value_eq]
  exact hr

/-- A table comes from distinct names that fit, and from the least value that keeps them apart. -/
theorem exists_names_of_search {t : MagicTable} (h : (search scheme texts settings).value = .ok t) :
    ∃ names : List CodedName, texts = names.map CodedName.given ∧
      t = .ofNames scheme t.magic names ∧ names.length ≤ scheme.slots ∧
      (∀ i, ¬ scheme.Duplicates texts i) ∧
      IsLeast {m | settings.Allows m ∧ scheme.KeepsApart names m} t.magic := by
  have hanswer := answers_search scheme texts settings
  rw [h] at hanswer
  cases hanswer with
  | found hfit hdistinct hm => exact ⟨_, rfl, rfl, hfit, hdistinct, hm⟩

end Rules

/--
**A search answers by the rules, and by nothing else.**

For all texts, schemes and settings: the answer exists, it is unique, and it is the one
that the rules give.
-/
theorem search_eq_iff_answers (scheme : Scheme) (texts : List (String × UInt16))
    (settings : SearchSettings) (r : Except SearchError MagicTable) :
    (search scheme texts settings).value = r ↔ Answers scheme settings texts r :=
  ⟨fun h => h ▸ answers_search scheme texts settings, Answers.value_eq⟩

end PerfectKeys
