import Mathlib.Data.List.Induction
import PerfectKeys.Proofs.Magic.Candidates

/-!
# Settings after any changes

Settings are changed one at a time, and a reset goes back to the first ones. Their type has room
for numbers in bounds only, so it does not show that changes keep to them. Here the same changes
are made to two plain words, of which nothing is known, and the range is taken by a subtraction
that can fail. The words stay in bounds, the subtraction never fails, and the range is the same.

What was set last counts, raised to one, until a reset. So it does not matter in which order the
start and the limit are set.
-/

namespace PerfectKeys

/-- A change of the settings. -/
inductive SettingChange where
  | start (value : UInt64)
  | limit (value : UInt64)
  /-- Nothing is set any more. -/
  | reset
  deriving DecidableEq

namespace SettingChange

/-- The value that the start is set to. -/
def start? : SettingChange → Option UInt64
  | start value => some value
  | limit _ | reset => none

/-- The value that the limit is set to. -/
def limit? : SettingChange → Option UInt64
  | limit value => some value
  | start _ | reset => none

/-- The changes that were made since the last reset, the last one first. -/
def sinceReset (changes : List SettingChange) : List SettingChange :=
  changes.reverse.takeWhile fun c => c ≠ reset

/-- The value that was last set, if one was since the last reset. -/
def lastSet? (value? : SettingChange → Option UInt64) (changes : List SettingChange) :
    Option UInt64 :=
  (sinceReset changes).findSome? value?

theorem sinceReset_append_reset (changes : List SettingChange) :
    sinceReset (changes ++ [reset]) = [] := by
  unfold sinceReset
  rw [List.reverse_append, List.reverse_singleton, List.singleton_append,
    List.takeWhile_cons_of_neg (by decide)]

theorem sinceReset_append {c : SettingChange} (h : c ≠ reset) (changes : List SettingChange) :
    sinceReset (changes ++ [c]) = c :: sinceReset changes := by
  have hc : decide (c ≠ reset) = true := decide_eq_true h
  unfold sinceReset
  rw [List.reverse_append, List.reverse_singleton, List.singleton_append, List.takeWhile_cons, hc,
    if_pos rfl]

end SettingChange

/-! ## Settings as plain words -/

/-- The difference, unless it is below zero. -/
def checkedSub? (a b : UInt64) : Option UInt64 := if b ≤ a then some (a - b) else none

/-- The sum, or the largest word where that is less. -/
def saturatingAdd (a b : UInt64) : UInt64 :=
  if a.toNat + b.toNat < UInt64.size then a + b else largestMagic

theorem toNat_saturatingAdd (a b : UInt64) :
    (saturatingAdd a b).toNat = min (a.toNat + b.toNat) (UInt64.size - 1) := by
  have hlargest : largestMagic.toNat = UInt64.size - 1 := rfl
  unfold saturatingAdd
  split
  · next h =>
    rw [UInt64.toNat_add]
    show (a.toNat + b.toNat) % UInt64.size = _
    rw [Nat.mod_eq_of_lt h]
    omega
  · omega

/-- Two words that may be anything. -/
structure PlainSettings where
  start : UInt64
  limit : UInt64

namespace PlainSettings

/-- Nothing is set. -/
def preset : PlainSettings := ⟨startBounds.preset, limitBounds.preset⟩

/-- The words after a change. -/
def change (p : PlainSettings) : SettingChange → PlainSettings
  | .start value => { p with start := startBounds.clamp value }
  | .limit value => { p with limit := limitBounds.clamp value }
  | .reset => preset

/-- The words after some changes, in order. -/
def changeAll (p : PlainSettings) (changes : List SettingChange) : PlainSettings :=
  changes.foldl change p

/-- The first and the last value to try. There is no answer when the limit is zero. -/
def range? (p : PlainSettings) : Option (UInt64 × UInt64) :=
  (checkedSub? p.limit 1).map fun more => (p.start, saturatingAdd p.start more)

/-- Both words are at least one. -/
def InBounds (p : PlainSettings) : Prop := 1 ≤ p.start ∧ 1 ≤ p.limit

theorem inBounds_preset : preset.InBounds := ⟨by decide, by decide⟩

theorem inBounds_change {p : PlainSettings} (h : p.InBounds) (c : SettingChange) :
    (p.change c).InBounds := by
  cases c with
  | start value => exact ⟨one_le_max_one _, h.2⟩
  | limit value => exact ⟨h.1, one_le_max_one _⟩
  | reset => exact inBounds_preset

/-- **Words that are in bounds stay in bounds.** -/
theorem inBounds_changeAll {p : PlainSettings} (h : p.InBounds) (changes : List SettingChange) :
    (p.changeAll changes).InBounds := by
  induction changes generalizing p with
  | nil => exact h
  | cons c changes ih => exact ih (inBounds_change h c)

end PlainSettings

namespace SearchSettings

/-! ## Runs of changes -/

/-- The settings after a change. -/
def change (s : SearchSettings) : SettingChange → SearchSettings
  | .start value => s.withStart value
  | .limit value => s.withLimit value
  | .reset => preset

/-- The settings after some changes, in order. -/
def changeAll (s : SearchSettings) (changes : List SettingChange) : SearchSettings :=
  changes.foldl change s

/-- The settings as plain words. -/
def plain (s : SearchSettings) : PlainSettings := ⟨s.start, s.limit⟩

theorem plain_change (s : SearchSettings) (c : SettingChange) :
    (s.change c).plain = s.plain.change c := by
  cases c with
  | start value => rfl
  | limit value => rfl
  | reset => rfl

/-- **Changing the settings is changing the words.** -/
theorem plain_changeAll (s : SearchSettings) (changes : List SettingChange) :
    (s.changeAll changes).plain = s.plain.changeAll changes := by
  induction changes generalizing s with
  | nil => rfl
  | cons c changes ih =>
      show ((s.change c).changeAll changes).plain = (s.plain.change c).changeAll changes
      rw [ih, plain_change]

theorem changeAll_append (s : SearchSettings) (changes : List SettingChange) (c : SettingChange) :
    s.changeAll (changes ++ [c]) = (s.changeAll changes).change c :=
  List.foldl_append

theorem clamp_eq_max (preset value : UInt64) :
    Bounds.clamp ⟨preset, 1, largestMagic⟩ value = max 1 value := by
  refine UInt64.toNat_inj.mp ?_
  rw [toNat_clamp, UInt64.toNat_max]
  rfl

theorem clamp_of_one_le {preset value : UInt64} (h : 1 ≤ value) :
    Bounds.clamp ⟨preset, 1, largestMagic⟩ value = value := by
  refine UInt64.toNat_inj.mp ?_
  rw [toNat_clamp]
  exact Nat.max_eq_right (UInt64.le_iff_toNat_le.mp h)

/-- **A setting is what it was last set to, raised to one, or what it is at first.** -/
theorem setting_changeAll {setting : SearchSettings → UInt64}
    {value? : SettingChange → Option UInt64} {unset : UInt64}
    (hpreset : setting preset = max 1 unset)
    (hstep : ∀ (s : SearchSettings) (c : SettingChange), c ≠ .reset →
      setting (s.change c) = ((value? c).map (max 1)).getD (setting s))
    (changes : List SettingChange) :
    setting (preset.changeAll changes)
      = max 1 ((SettingChange.lastSet? value? changes).getD unset) := by
  unfold SettingChange.lastSet?
  -- on the last change: it is a reset, or it sets the value, or the ones before it decide
  induction changes using List.reverseRecOn with
  | nil => exact hpreset
  | append_singleton changes c ih =>
      rw [changeAll_append]
      by_cases hc : c = .reset
      · rw [hc, SettingChange.sinceReset_append_reset]
        exact hpreset
      · rw [SettingChange.sinceReset_append hc, List.findSome?_cons, hstep _ c hc]
        cases value? c with
        | none => exact ih
        | some v => rfl

theorem start_changeAll (changes : List SettingChange) :
    (preset.changeAll changes).start
      = max 1 ((SettingChange.lastSet? SettingChange.start? changes).getD 1) := by
  refine setting_changeAll rfl (fun s c hc => ?_) changes
  cases c with
  | start value => exact clamp_eq_max 1 value
  | limit value => rfl
  | reset => exact absurd rfl hc

theorem limit_changeAll (changes : List SettingChange) :
    (preset.changeAll changes).limit
      = max 1 ((SettingChange.lastSet? SettingChange.limit? changes).getD 0x100000000) := by
  refine setting_changeAll rfl (fun s c hc => ?_) changes
  cases c with
  | start value => rfl
  | limit value => exact clamp_eq_max 0x100000000 value
  | reset => exact absurd rfl hc

/-- Either setting can be set first. -/
theorem start_comm_limit (s : SearchSettings) (start limit : UInt64) :
    s.changeAll [.start start, .limit limit] = s.changeAll [.limit limit, .start start] := rfl

/-- A start that is in bounds is not changed when it is set again. -/
theorem withStart_start (s : SearchSettings) : s.withStart s.start = s := by
  have hstart : startBounds.clamp s.start = s.start := clamp_of_one_le s.one_le_start
  cases s
  simp only [withStart, hstart]

/-- A limit that is in bounds is not changed when it is set again. -/
theorem withLimit_limit (s : SearchSettings) : s.withLimit s.limit = s := by
  have hlimit : limitBounds.clamp s.limit = s.limit := clamp_of_one_le s.one_le_limit
  cases s
  simp only [withLimit, hlimit]

/-! ## Ranges -/

/-- **The limit can be lowered by one, and the range ends where the sum stops.** -/
theorem range?_plain (s : SearchSettings) : s.plain.range? = some (s.start, s.last) := by
  have hone := s.one_le_toNat_limit
  have hmore : (s.limit - 1).toNat = s.limit.toNat - 1 :=
    UInt64.toNat_sub_of_le _ _ s.one_le_limit
  have hlast : saturatingAdd s.start (s.limit - 1) = s.last := by
    refine UInt64.toNat_inj.mp ?_
    rw [toNat_saturatingAdd, hmore, toNat_last, ← Nat.add_sub_assoc hone]
  show (checkedSub? s.limit 1).map (fun more => (s.start, saturatingAdd s.start more)) = _
  rw [checkedSub?, if_pos s.one_le_limit, Option.map_some, hlast]

theorem length_candidates (s : SearchSettings) : s.candidates.length = s.count := by
  unfold candidates magicsFrom
  rw [List.length_map, List.length_range]

/-- **The candidates are consecutive numbers.** -/
theorem map_toNat_candidates (s : SearchSettings) :
    s.candidates.map UInt64.toNat = List.range' s.start.toNat s.count := by
  unfold candidates magicsFrom
  rw [List.map_map, List.range'_eq_map_range]
  refine List.map_congr_left fun k hk => ?_
  exact toNat_add_ofNat s.start_add_count_le (List.mem_range.mp hk)

theorem getElem?_candidates (s : SearchSettings) {i : Nat} (h : i < s.count) :
    s.candidates[i]? = some (s.start + UInt64.ofNat i) := by
  unfold candidates magicsFrom
  rw [List.getElem?_map, List.getElem?_range h]
  rfl

theorem head?_candidates (s : SearchSettings) : s.candidates.head? = some s.start := by
  rw [List.head?_eq_getElem?, s.getElem?_candidates (Nat.succ_pos _)]
  exact congrArg some (UInt64.add_zero s.start)

theorem getLast?_candidates (s : SearchSettings) : s.candidates.getLast? = some s.last := by
  have hcount := s.start_add_count
  have hpos : 0 < s.count := Nat.succ_pos _
  rw [List.getLast?_eq_getElem?, length_candidates, s.getElem?_candidates (by omega)]
  refine congrArg some (UInt64.toNat_inj.mp ?_)
  rw [toNat_add_ofNat s.start_add_count_le (by omega)]
  omega

theorem zero_notMem_candidates (s : SearchSettings) : 0 ∉ s.candidates := by
  intro h
  have hstart : 1 ≤ s.start.toNat := UInt64.le_iff_toNat_le.mp s.one_le_start
  have hzero : s.start.toNat ≤ 0 := (mem_candidates_iff.mp h).1
  omega

/--
**Settings never leave their bounds.**

After any changes of the first settings, also when they are made to plain words, the start and the
limit are at least one, so the limit can be lowered by one. The candidates start where they should
and do not have zero; they end at the exact sum or at the largest word, and are consecutive. Each
setting is what it was last set to since the last reset, raised to one. So the two can be set in
either order, and setting what is set already changes nothing.
-/
theorem changes_keep_bounds (changes : List SettingChange) :
    let s := preset.changeAll changes
    let p := PlainSettings.preset.changeAll changes
    (p = s.plain ∧ 1 ≤ p.start ∧ 1 ≤ p.limit ∧ p.range? = some (s.start, s.last)) ∧
    (s.candidates ≠ [] ∧ s.candidates.head? = some s.start ∧ 0 ∉ s.candidates ∧
      s.candidates.getLast? = some s.last ∧
      s.last.toNat = min (s.start.toNat + s.limit.toNat - 1) (UInt64.size - 1) ∧
      s.candidates.length = min s.limit.toNat (UInt64.size - s.start.toNat) ∧
      s.candidates.map UInt64.toNat = List.range' s.start.toNat s.candidates.length) ∧
    (s.start = max 1 ((SettingChange.lastSet? SettingChange.start? changes).getD 1) ∧
      s.limit = max 1 ((SettingChange.lastSet? SettingChange.limit? changes).getD 0x100000000)) ∧
    (∀ start limit, s.changeAll [.start start, .limit limit]
      = s.changeAll [.limit limit, .start start]) ∧
    s.change (.start s.start) = s ∧ s.change (.limit s.limit) = s := by
  intro s p
  have hp : p = s.plain := (plain_changeAll preset changes).symm
  have hbounds := PlainSettings.inBounds_changeAll PlainSettings.inBounds_preset changes
  have hne : s.candidates ≠ [] := by
    intro hnil
    have hhead := s.head?_candidates
    rw [hnil] at hhead
    cases hhead
  refine ⟨⟨hp, hbounds.1, hbounds.2, ?_⟩,
    ⟨hne, s.head?_candidates, s.zero_notMem_candidates, s.getLast?_candidates, s.toNat_last,
      ?_, ?_⟩,
    ⟨start_changeAll changes, limit_changeAll changes⟩, s.start_comm_limit, s.withStart_start,
    s.withLimit_limit⟩
  · rw [hp, range?_plain]
  · rw [length_candidates, count_eq]
  · rw [length_candidates, map_toNat_candidates]

/-- The range of ten values stops at the largest word after two. -/
example : (preset.changeAll [.start 18446744073709551614, .limit 10]).candidates
    = [18446744073709551614, 18446744073709551615] := by decide

end SearchSettings

end PerfectKeys
