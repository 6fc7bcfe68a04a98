import PerfectKeys.Proofs.Event
import PerfectKeys.Proofs.Magic.Answer

/-!
# The log of a search

A search logs nothing until it tries magic values. Then it logs every value that fails, in order,
and after them how it ended. Trying values is one loop and looking for a taken slot is another, and
both stop early: the first at the value that it finds, the second at the name that it blames. So
the position of a record tells the value it is about, and the name in it is the first, of all
names, that has the slot of an earlier one.
-/

namespace PerfectKeys

/-! ## Trying values in order -/

/-- Values that fail are followed by one that does not, unless there are no more. -/
theorem exists_tryFrom_eq {α : Type} (fault? : UInt64 → Option α) (count : Nat) (magic : UInt64)
    (failed : List (UInt64 × α)) :
    ∃ faults : List α,
      (tryFrom fault? count magic failed).failed
        = failed.reverse ++ faults.mapIdx (fun k fault => (magic + .ofNat k, fault)) ∧
      (∀ k fault, faults[k]? = some fault → fault? (magic + .ofNat k) = some fault) ∧
      (faults.length < count ∧
          (tryFrom fault? count magic failed).found = some (magic + .ofNat faults.length) ∨
        faults.length = count ∧ (tryFrom fault? count magic failed).found = none) := by
  induction count generalizing magic failed with
  | zero => exact ⟨[], (List.append_nil _).symm, fun _ _ h => (nomatch h), Or.inr ⟨rfl, rfl⟩⟩
  | succ count ih =>
      have hnext (k : Nat) : magic + 1 + UInt64.ofNat k = magic + UInt64.ofNat (k + 1) := by
        rw [UInt64.ofNat_add, UInt64.add_assoc, UInt64.add_comm (UInt64.ofNat k)]
        rfl
      rw [tryFrom]
      cases hfault : fault? magic with
      | none =>
          refine ⟨[], (List.append_nil _).symm, fun _ _ h => (nomatch h), Or.inl ⟨?_, ?_⟩⟩
          · exact Nat.zero_lt_succ count
          · exact congrArg some (UInt64.add_zero magic).symm
      | some fault =>
          obtain ⟨faults, hfailed, hfaults, hfound⟩ := ih (magic + 1) ((magic, fault) :: failed)
          simp only [hnext] at hfailed hfaults hfound
          refine ⟨fault :: faults, ?_, ?_, ?_⟩
          · dsimp only
            rw [hfailed, List.reverse_cons, List.append_assoc, List.mapIdx_cons]
            show _ ++ (magic, fault) :: _ = _ ++ (magic + 0, fault) :: _
            rw [UInt64.add_zero]
            rfl
          · intro k other hk
            cases k with
            | zero =>
                cases hk
                show fault? (magic + 0) = _
                rw [UInt64.add_zero, hfault]
            | succ k => exact hfaults k other hk
          · rw [List.length_cons]
            rcases hfound with ⟨hlt, hfound⟩ | ⟨heq, hfound⟩
            · exact Or.inl ⟨Nat.succ_lt_succ hlt, hfound⟩
            · exact Or.inr ⟨congrArg Nat.succ heq, hfound⟩

/-! ## The name that is blamed -/

namespace Scheme

/-- Under this magic value, the name stands at the least position where a slot comes again. -/
def Blames (s : Scheme) (names : List CodedName) (magic : UInt64) (name : Mnemonic) : Prop :=
  ∃ i n, IsLeast {i | RepeatsAt (fun n => s.slot magic n.name) names i} i ∧
    names[i]? = some n ∧ n.name = name

theorem firstClash?_eq_some_iff {s : Scheme} {names : List CodedName} {magic : UInt64}
    {name : Mnemonic} :
    s.firstClash? (names.map fun n => (n.name, s.digest n.name)) magic = some name ↔
      s.Blames names magic name := by
  have hset : {i | RepeatsAt (fun p : Mnemonic × Digest => s.place magic p.2)
      (names.map fun n => (n.name, s.digest n.name)) i}
        = {i | RepeatsAt (fun n => s.slot magic n.name) names i} :=
    Set.ext fun i => repeatsAt_map_iff
  unfold firstClash? Blames
  rw [Option.map_eq_some_iff]
  constructor
  · intro h
    obtain ⟨p, hp, rfl⟩ := h
    obtain ⟨i, hi, hleast⟩ := firstRepeat?_eq_some_iff.mp hp
    rw [List.getElem?_map] at hi
    obtain ⟨n, hn, rfl⟩ := Option.map_eq_some_iff.mp hi
    rw [hset] at hleast
    exact ⟨i, n, hleast, hn, rfl⟩
  · intro h
    obtain ⟨i, n, hleast, hn, rfl⟩ := h
    rw [← hset] at hleast
    refine ⟨(n.name, s.digest n.name), firstRepeat?_eq_some_iff.mpr ⟨i, ?_, hleast⟩, rfl⟩
    rw [List.getElem?_map, hn, Option.map_some]

end Scheme

/-! ## Records -/

/-- What a search logs that tried this many values from the first one on, all of them without
success, and then ended with these words. -/
structure SearchLog (s : Scheme) (names : List CodedName) (start : UInt64) (count : Nat)
    (verdict : String) (records : List LogRecord) : Prop where
  /-- There is a record for each value, and one for the end. -/
  length_eq : records.length = count + 1
  /-- The record of a value stands at its place in the range, and blames a name. -/
  clash_eq : ∀ magic : UInt64, start.toNat ≤ magic.toNat → magic.toNat < start.toNat + count →
    ∃ name, s.Blames names magic name ∧ records[magic.toNat - start.toNat]? =
      some ⟨.trace, "zone_keys::magic", s!"magic {magic.toNat} collides at {name.text}"⟩
  verdict_eq : records[count]? = some ⟨.debug, "zone_keys::magic", verdict⟩
  /-- The values are what is traced. -/
  traced_eq : (records.countP fun r => r.level = .trace) = count
  /-- Without the traces, the end is all that is left. -/
  shown_eq : (records.filter fun r => r.level ≤ .debug) = [⟨.debug, "zone_keys::magic", verdict⟩]

section Records

variable {s : Scheme} {names : List CodedName} {start : UInt64}

/-- The clashes of values in order, with the names that were blamed. -/
def clashes (start : UInt64) (blamed : List Mnemonic) : List Event :=
  blamed.mapIdx fun k name => .clash (start + .ofNat k) name

theorem searchLog_clashes {blamed : List Mnemonic} {final : Event} {verdict : String}
    (hfits : start.toNat + blamed.length ≤ UInt64.size)
    (hblames : ∀ k name, blamed[k]? = some name → s.Blames names (start + .ofNat k) name)
    (hfinal : final.record = ⟨.debug, "zone_keys::magic", verdict⟩) :
    SearchLog s names start blamed.length verdict
      ((clashes start blamed ++ [final]).map Event.record) := by
  have hlength : ((clashes start blamed).map Event.record).length = blamed.length := by
    rw [List.length_map, clashes, List.length_mapIdx]
  have htraces : ∀ r ∈ (clashes start blamed).map Event.record, r.level = .trace := by
    intro r hr
    obtain ⟨event, hevent, rfl⟩ := List.mem_map.mp hr
    obtain ⟨k, hk, rfl⟩ := List.mem_mapIdx.mp hevent
    rfl
  rw [List.map_append, List.map_singleton, hfinal]
  refine ⟨?_, fun magic hlow hhigh => ?_, ?_, ?_, ?_⟩
  · rw [List.length_append, hlength]
    rfl
  · have hk : magic.toNat - start.toNat < blamed.length := by omega
    have hmagic : start + UInt64.ofNat (magic.toNat - start.toNat) = magic := by
      refine UInt64.toNat_inj.mp ?_
      rw [toNat_add_ofNat hfits hk]
      omega
    have hname := List.getElem?_eq_getElem hk
    have hblamed := hblames _ _ hname
    rw [hmagic] at hblamed
    refine ⟨_, hblamed, ?_⟩
    rw [List.getElem?_append_left (by rwa [hlength]), List.getElem?_map, clashes,
      List.getElem?_mapIdx, hname, Option.map_some, Option.map_some, hmagic]
    rfl
  · rw [List.getElem?_append_right (Nat.le_of_eq hlength), hlength, Nat.sub_self]
    rfl
  · rw [List.countP_append, List.countP_eq_length.mpr, hlength]
    · rfl
    · intro r hr
      exact decide_eq_true (htraces r hr)
  · rw [List.filter_append, List.filter_eq_nil_iff.mpr]
    · rfl
    · intro r hr
      rw [htraces r hr]
      decide

end Records

/-! ## Searches -/

section Searches

variable {scheme : Scheme} {texts : List (String × UInt16)} {settings : SearchSettings}

/-- Names that are refused leave nothing in the log. -/
theorem search_of_examine_error {e : SearchError} (h : scheme.examine texts = .error e) :
    search scheme texts settings = pure (.error e) := by
  unfold search
  rw [h]

/-- What a search for names that were not refused comes to, with its log. -/
theorem exists_search_eq (settings : SearchSettings) {names : List CodedName}
    (h : scheme.examine texts = .ok names) :
    ∃ blamed : List Mnemonic, blamed.length ≤ settings.count ∧
      (∀ k name, blamed[k]? = some name →
        scheme.Blames names (settings.start + .ofNat k) name) ∧
      ((search scheme texts settings).value
            = .ok (.ofNames scheme (settings.start + .ofNat blamed.length) names) ∧
          blamed.length < settings.count ∧
          (search scheme texts settings).events = clashes settings.start blamed
            ++ [.found (settings.start + .ofNat blamed.length) names.length] ∨
        (search scheme texts settings).value
            = .error (.exhausted settings.start settings.last) ∧
          blamed.length = settings.count ∧
          (search scheme texts settings).events = clashes settings.start blamed
            ++ [.exhausted settings.start settings.last]) := by
  obtain ⟨blamed, hfailed, hblamed, hfound⟩ := exists_tryFrom_eq
    (scheme.firstClash? (names.map fun n => (n.name, scheme.digest n.name)))
    settings.count settings.start []
  have hclashes {event : UInt64 × Mnemonic → Event}
      (hevent : ∀ magic name, event (magic, name) = .clash magic name) :
      (tryFrom (scheme.firstClash? (names.map fun n => (n.name, scheme.digest n.name)))
        settings.count settings.start []).failed.map event = clashes settings.start blamed := by
    rw [hfailed, List.reverse_nil, List.nil_append, List.mapIdx_eq_zipIdx_map, List.map_map,
      clashes, List.mapIdx_eq_zipIdx_map]
    exact List.map_congr_left fun p _ => hevent _ _
  have hleast (k : Nat) (name : Mnemonic) (hk : blamed[k]? = some name) :
      scheme.Blames names (settings.start + .ofNat k) name :=
    Scheme.firstClash?_eq_some_iff.mp (hblamed k name hk)
  unfold search
  rw [h]
  dsimp only
  rw [Logged.value_bind, Logged.events_bind, Logged.events_emitAll, hclashes fun _ _ => rfl]
  rcases hfound with ⟨hlt, hfound⟩ | ⟨heq, hfound⟩
  · refine ⟨blamed, Nat.le_of_lt hlt, hleast, Or.inl ?_⟩
    rw [hfound]
    exact ⟨rfl, hlt, rfl⟩
  · refine ⟨blamed, Nat.le_of_eq heq, hleast, Or.inr ?_⟩
    rw [hfound]
    exact ⟨rfl, heq, rfl⟩

/-- Names that were not refused are those that the texts give. -/
theorem eq_map_given_of_examine {names : List CodedName} (h : scheme.examine texts = .ok names) :
    texts = names.map CodedName.given := by
  rcases given_or_error texts with ⟨others, rfl⟩ | ⟨before, text, code, after, e, rfl, he⟩
  · rw [Scheme.examine_map_given] at h
    split at h
    · cases h
    · cases hdup : scheme.firstDuplicate? others with
      | some i =>
          rw [hdup] at h
          cases h
      | none =>
          rw [hdup] at h
          cases h
          rfl
  · rw [Scheme.examine_of_error (readNames_append_cons he)] at h
    cases h

end Searches

/--
**The log of a search is exact.**

A search that ends before it tries a magic value logs nothing. Else there is one trace for every
value that failed, in order, with the name at the least position that has the slot of an earlier
name, and one record at the end that tells the result. The values that failed are those before the
one that was found, or all of the range.
-/
theorem search_log_exact (scheme : Scheme) (texts : List (String × UInt16))
    (settings : SearchSettings) :
    let x := search scheme texts settings
    (∀ e, x.value = .error e → (∀ first last, e ≠ .exhausted first last) → x.events = []) ∧
    (∀ t, x.value = .ok t → ∃ names : List CodedName, texts = names.map CodedName.given ∧
      settings.start.toNat ≤ t.magic.toNat ∧
      SearchLog scheme names settings.start (t.magic.toNat - settings.start.toNat)
        s!"found magic value {t.magic.toNat} for {texts.length} names"
        (x.events.map Event.record)) ∧
    ∀ first last, x.value = .error (.exhausted first last) →
      ∃ names : List CodedName, texts = names.map CodedName.given ∧
        first = settings.start ∧ last = settings.last ∧ first.toNat ≤ last.toNat ∧
        SearchLog scheme names first (last.toNat - first.toNat + 1)
          s!"no magic value in {first.toNat}..={last.toNat}"
          (x.events.map Event.record) := by
  intro x
  cases hexamine : scheme.examine texts with
  | error e =>
      have hx : x = pure (.error e) := search_of_examine_error hexamine
      rw [hx]
      refine ⟨fun _ _ _ => rfl, fun t ht => (nomatch ht), fun first last herror => ?_⟩
      cases herror
      exact absurd hexamine (scheme.examine_ne_exhausted texts first last)
  | ok names =>
      obtain rfl := eq_map_given_of_examine hexamine
      have hsize := settings.start_add_count_le
      have hlast := settings.start_add_count
      have hstart := settings.start_le_last
      obtain ⟨blamed, hle, hblames, hsearch⟩ := exists_search_eq settings hexamine
      have hfits : settings.start.toNat + blamed.length ≤ UInt64.size := by omega
      rcases hsearch with ⟨hvalue, hlt, hevents⟩ | ⟨hvalue, heq, hevents⟩
      · have hmagic := toNat_add_ofNat hsize hlt
        refine ⟨fun e he => ?_, fun t ht => ?_, fun first last herror => ?_⟩
        · rw [hvalue] at he
          cases he
        · rw [hvalue] at ht
          cases ht
          refine ⟨names, rfl, ?_, ?_⟩
          · show _ ≤ (settings.start + UInt64.ofNat blamed.length).toNat
            omega
          · have hcount : (settings.start + UInt64.ofNat blamed.length).toNat
                - settings.start.toNat = blamed.length := by omega
            rw [hevents, List.length_map]
            show SearchLog _ _ _ ((settings.start + UInt64.ofNat blamed.length).toNat - _) _ _
            rw [hcount]
            exact searchLog_clashes hfits hblames rfl
        · rw [hvalue] at herror
          cases herror
      · refine ⟨fun e he hne => ?_, fun t ht => ?_, fun first last herror => ?_⟩
        · rw [hvalue] at he
          cases he
          exact absurd rfl (hne settings.start settings.last)
        · rw [hvalue] at ht
          cases ht
        · rw [hvalue] at herror
          cases herror
          refine ⟨names, rfl, rfl, rfl, hstart, ?_⟩
          have hcount : settings.last.toNat - settings.start.toNat + 1 = blamed.length := by omega
          rw [hevents, hcount]
          exact searchLog_clashes hfits hblames rfl

/-- Near the largest magic value one value fails. The search ends there, or finds the next one. A
single slot is not enough for two names, so nothing is tried. -/
theorem search_log_exact_near_largest :
    let scheme : Scheme := ⟨1, false, false⟩
    let texts := [("RSASHA256", 8), ("RSAMD5", 1)]
    let settings := SearchSettings.preset.withStart 18446744073709551612
    (∃ names, texts = names.map CodedName.given ∧
      SearchLog scheme names 18446744073709551612 1
        "found magic value 18446744073709551613 for 2 names"
        ((search scheme texts settings).events.map Event.record)) ∧
    (∃ names, texts = names.map CodedName.given ∧
      SearchLog scheme names 18446744073709551612 1
        "no magic value in 18446744073709551612..=18446744073709551612"
        ((search scheme texts (settings.withLimit 1)).events.map Event.record)) ∧
    (search ⟨0, false, false⟩ texts settings).events = [] := by
  intro scheme texts settings
  have hmagic : (search scheme texts settings).value.toOption.map MagicTable.magic
      = some 18446744073709551613 := by decide +kernel
  refine ⟨?_, ?_, ?_⟩
  · cases hvalue : (search scheme texts settings).value with
    | error e =>
        rw [hvalue] at hmagic
        cases hmagic
    | ok t =>
        rw [hvalue] at hmagic
        have hmagic : t.magic = 18446744073709551613 := Option.some.inj hmagic
        obtain ⟨names, hnames, -, hlog⟩ := (search_log_exact scheme texts settings).2.1 t hvalue
        have hcount : t.magic.toNat - settings.start.toNat = 1 := by
          rw [hmagic]
          decide +kernel
        have hverdict : s!"found magic value {t.magic.toNat} for {texts.length} names"
            = "found magic value 18446744073709551613 for 2 names" := by
          rw [hmagic]
          decide +kernel
        rw [hcount, hverdict] at hlog
        exact ⟨names, hnames, hlog⟩
  · obtain ⟨names, hnames, -, -, -, hlog⟩ :=
      (search_log_exact scheme texts (settings.withLimit 1)).2.2 18446744073709551612
        18446744073709551612 (by decide +kernel)
    exact ⟨names, hnames, hlog⟩
  · refine (search_log_exact ⟨0, false, false⟩ texts settings).1 (.tooManyNames 2 1)
      (by decide +kernel) fun first last h => ?_
    cases h

end PerfectKeys
