import PerfectKeys.Proofs.Magic.Answer

/-!
# Searches that go on

A search that is exhausted can be resumed behind its last candidate. The candidates of the two
searches, one list behind the other, are those of a single search: none is tried twice, none is
left out, and where the range stops at the largest word it does so in either case. So the single
search answers what the first part answers, if that is an answer, and else what the second part
does, with the start of the first one as the start of the range.

A search that found a table finds it again from any start up to its magic value, as long as the
range reaches that value.
-/

namespace PerfectKeys

/-- The answer to a search that started here, was answered by the first answer, and was resumed
for the second one where the first had exhausted its range. -/
def resumed (start : UInt64) :
    Except SearchError MagicTable → Except SearchError MagicTable → Except SearchError MagicTable
  | .error (.exhausted _ _), .error (.exhausted _ last) => .error (.exhausted start last)
  | .error (.exhausted _ _), answer => answer
  | answer, _ => answer

namespace SearchSettings

/-- Starts at the first value and tries as many values as the second one says. -/
def of (start limit : UInt64) : SearchSettings := (preset.withStart start).withLimit limit

theorem toNat_start_of (start limit : UInt64) : (of start limit).start.toNat = max 1 start.toNat :=
  toNat_clamp _ start

theorem toNat_limit_of (start limit : UInt64) : (of start limit).limit.toNat = max 1 limit.toNat :=
  toNat_clamp _ limit

/-! ## Ranges in two parts -/

/-- The values of a range are those of two others, one behind the other. -/
structure SplitsInto (whole first rest : SearchSettings) : Prop where
  start_eq : first.start = whole.start
  /-- The second part starts behind the last value of the first. -/
  seam_eq : rest.start.toNat = first.start.toNat + first.limit.toNat
  limit_eq : whole.limit.toNat = first.limit.toNat + rest.limit.toNat

section Parts

variable {whole first rest : SearchSettings}

theorem last_eq_of_splitsInto (h : whole.SplitsInto first rest) : whole.last = rest.last := by
  refine UInt64.toNat_inj.mp ?_
  rw [toNat_last, toNat_last, h.limit_eq, h.seam_eq, h.start_eq, Nat.add_assoc]

/-- The first part is not cut off by the largest word: the second one starts behind it. -/
theorem count_eq_of_splitsInto (h : whole.SplitsInto first rest) :
    first.count = first.limit.toNat := by
  have hseam := h.seam_eq
  have hlt : rest.start.toNat < UInt64.size := rest.start.toNat_lt
  rw [count_eq]
  omega

theorem candidates_eq_append (h : whole.SplitsInto first rest) :
    whole.candidates = first.candidates ++ rest.candidates := by
  have hseam := h.seam_eq
  have hfirst := count_eq_of_splitsInto h
  have hwhole := whole.start_add_count
  have hrest := rest.start_add_count
  have hcount : whole.count = first.count + rest.count := by
    rw [last_eq_of_splitsInto h, ← h.start_eq] at hwhole
    omega
  have hstart : first.start + UInt64.ofNat first.count = rest.start := by
    rw [hfirst, UInt64.ofNat_toNat]
    refine UInt64.toNat_inj.mp ?_
    rw [UInt64.toNat_add, hseam]
    exact Nat.mod_eq_of_lt (hseam ▸ rest.start.toNat_lt)
  unfold candidates
  rw [hcount, ← h.start_eq, magicsFrom_add, hstart]

end Parts

section Values

variable {a l : UInt64}

/-- The parts of a range, by their first values and limits. -/
theorem splitsInto_of {l₁ l₂ : UInt64} (ha : 1 ≤ a) (h₁ : 1 ≤ l₁) (h₂ : 1 ≤ l₂)
    (hseam : a.toNat + l₁.toNat < UInt64.size) (hlimit : l₁.toNat + l₂.toNat < UInt64.size) :
    (of a (l₁ + l₂)).SplitsInto (of a l₁) (of (a + l₁) l₂) := by
  have ha : 1 ≤ a.toNat := UInt64.le_iff_toNat_le.mp ha
  have h₁ : 1 ≤ l₁.toNat := UInt64.le_iff_toNat_le.mp h₁
  have h₂ : 1 ≤ l₂.toNat := UInt64.le_iff_toNat_le.mp h₂
  have hstart : (a + l₁).toNat = a.toNat + l₁.toNat := by
    rw [UInt64.toNat_add]
    exact Nat.mod_eq_of_lt hseam
  have hsum : (l₁ + l₂).toNat = l₁.toNat + l₂.toNat := by
    rw [UInt64.toNat_add]
    exact Nat.mod_eq_of_lt hlimit
  refine ⟨rfl, ?_, ?_⟩
  · rw [toNat_start_of, toNat_start_of, toNat_limit_of, hstart]
    omega
  · rw [toNat_limit_of, toNat_limit_of, toNat_limit_of, hsum]
    omega

theorem allows_of {magic : UInt64} (hpos : 1 ≤ magic.toNat) (hstart : a.toNat ≤ magic.toNat)
    (hlimit : magic.toNat - a.toNat + 1 ≤ l.toNat) : (of a l).Allows magic := by
  have hlt : magic.toNat < 18446744073709551616 := magic.toNat_lt
  have hsize : UInt64.size = 18446744073709551616 := rfl
  unfold Allows
  rw [toNat_start_of, toNat_limit_of]
  omega

end Values

end SearchSettings

section Answers

variable {scheme : Scheme} {texts : List (String × UInt16)}

/-- **A search of a whole range is a search of its first part, resumed in the second.** -/
theorem value_search_of_splitsInto {whole first rest : SearchSettings}
    (h : whole.SplitsInto first rest) :
    (search scheme texts whole).value = resumed whole.start (search scheme texts first).value
      (search scheme texts rest).value := by
  rw [value_search, value_search, value_search]
  cases hexamine : scheme.examine texts with
  | error e =>
      cases e with
      | mnemonic cause => rfl
      | tooManyNames names slots => rfl
      | duplicateName index => rfl
      | exhausted start last => exact absurd hexamine (scheme.examine_ne_exhausted texts start last)
  | ok names =>
      dsimp only
      rw [SearchSettings.candidates_eq_append h, List.find?_append,
        SearchSettings.last_eq_of_splitsInto h]
      -- a value found in the first part is the answer, whatever the second part has
      cases first.candidates.find? fun m => decide (scheme.KeepsApart names m) with
      | some magic => rfl
      | none =>
          cases rest.candidates.find? fun m => decide (scheme.KeepsApart names m) with
          | some magic => rfl
          | none => rfl

theorem allows_of_search {settings : SearchSettings} {t : MagicTable}
    (h : (search scheme texts settings).value = .ok t) : settings.Allows t.magic := by
  obtain ⟨names, -, -, -, -, hleast⟩ := exists_names_of_search h
  exact hleast.1.1

/-- A table is found again from a later start, if its magic value is in range. -/
theorem value_search_of_later_start {settings later : SearchSettings} {t : MagicTable}
    (h : (search scheme texts settings).value = .ok t)
    (hstart : settings.start.toNat ≤ later.start.toNat) (hmagic : later.Allows t.magic) :
    (search scheme texts later).value = .ok t := by
  obtain ⟨names, rfl, ht, hfit, hdistinct, hleast⟩ := exists_names_of_search h
  have hlater : IsLeast {m | later.Allows m ∧ scheme.KeepsApart names m} t.magic := by
    refine ⟨⟨hmagic, hleast.1.2⟩, fun m hm => ?_⟩
    obtain ⟨hallows, happ⟩ := hm
    -- the later range has no value below the magic value that the earlier one lacks
    rcases Nat.lt_or_ge m.toNat t.magic.toNat with hlt | hge
    · have hlow := Nat.le_trans hstart hallows.1
      have hhigh := Nat.le_trans (Nat.le_of_lt hlt) hleast.1.1.2
      exact hleast.2 ⟨⟨hlow, hhigh⟩, happ⟩
    · exact UInt64.le_iff_toNat_le.mpr hge
  exact (Answers.found hfit hdistinct hlater).value_eq.trans (congrArg Except.ok ht.symm)

end Answers

/--
**A search can be split and resumed.**

A search for a number of values answers what a search for the first ones answers, resumed for
the remaining ones where they are exhausted. A search that finds a table finds the same one from
any start between its own and the magic value, with any limit that reaches the magic value, so
also from the magic value itself with a limit of one.
-/
theorem search_resume (scheme : Scheme) (texts : List (String × UInt16)) :
    (∀ a l₁ l₂ : UInt64, 1 ≤ a → 1 ≤ l₁ → 1 ≤ l₂ → a.toNat + l₁.toNat < UInt64.size →
      l₁.toNat + l₂.toNat < UInt64.size →
      (search scheme texts (.of a (l₁ + l₂))).value
        = resumed a (search scheme texts (.of a l₁)).value
          (search scheme texts (.of (a + l₁) l₂)).value) ∧
    (∀ (settings : SearchSettings) (t : MagicTable),
      (search scheme texts settings).value = .ok t →
      (∀ a l : UInt64, settings.start ≤ a → a ≤ t.magic →
        t.magic.toNat - a.toNat + 1 ≤ l.toNat → (search scheme texts (.of a l)).value = .ok t) ∧
      (search scheme texts (.of t.magic 1)).value = .ok t) := by
  refine ⟨fun a l₁ l₂ ha h₁ h₂ hseam hlimit => ?_, fun settings t h => ?_⟩
  · have hsplit := SearchSettings.splitsInto_of ha h₁ h₂ hseam hlimit
    have hstart : (SearchSettings.of a (l₁ + l₂)).start = a := by
      refine UInt64.toNat_inj.mp ?_
      rw [SearchSettings.toNat_start_of]
      exact Nat.max_eq_right (UInt64.le_iff_toNat_le.mp ha)
    rw [value_search_of_splitsInto hsplit, hstart]
  · have hallows := allows_of_search h
    have hpos : 1 ≤ t.magic.toNat :=
      Nat.le_trans (UInt64.le_iff_toNat_le.mp settings.one_le_start) hallows.1
    have hlater (a l : UInt64) (hstart : settings.start.toNat ≤ a.toNat)
        (hmagic : a.toNat ≤ t.magic.toNat) (hlimit : t.magic.toNat - a.toNat + 1 ≤ l.toNat) :
        (search scheme texts (.of a l)).value = .ok t := by
      refine value_search_of_later_start h ?_ (SearchSettings.allows_of hpos hmagic hlimit)
      rw [SearchSettings.toNat_start_of]
      omega
    refine ⟨fun a l hstart hmagic hlimit => ?_, ?_⟩
    · exact hlater a l (UInt64.le_iff_toNat_le.mp hstart) (UInt64.le_iff_toNat_le.mp hmagic) hlimit
    · refine hlater t.magic 1 hallows.1 (Nat.le_refl _) ?_
      rw [Nat.sub_self]
      rfl

/-- At the top of the range the first value fails and the next one is found, by a search that
tries both, that is resumed behind the first, or that starts at the second. -/
theorem search_resume_near_largest :
    let scheme : Scheme := ⟨1, false, false⟩
    let texts := [("RSASHA256", 8), ("RSAMD5", 1)]
    ∃ t, t.magic = 18446744073709551613 ∧
      (search scheme texts (.of 18446744073709551612 1)).value
        = .error (.exhausted 18446744073709551612 18446744073709551612) ∧
      (search scheme texts (.of 18446744073709551613 9)).value = .ok t ∧
      (search scheme texts (.of 18446744073709551612 10)).value = .ok t ∧
      (search scheme texts (.of 18446744073709551613 3)).value = .ok t ∧
      (search scheme texts (.of t.magic 1)).value = .ok t := by
  intro scheme texts
  obtain ⟨hsplit, hagain⟩ := search_resume scheme texts
  have hfirst : (search scheme texts (.of 18446744073709551612 1)).value
      = .error (.exhausted 18446744073709551612 18446744073709551612) := by decide +kernel
  have hmagic : (search scheme texts (.of 18446744073709551613 9)).value.toOption.map
      MagicTable.magic = some 18446744073709551613 := by decide +kernel
  have hwhole : (search scheme texts (.of 18446744073709551612 10)).value
      = resumed 18446744073709551612 (search scheme texts (.of 18446744073709551612 1)).value
        (search scheme texts (.of 18446744073709551613 9)).value :=
    hsplit 18446744073709551612 1 9 (by decide) (by decide) (by decide) (by decide) (by decide)
  cases hrest : (search scheme texts (.of 18446744073709551613 9)).value with
  | error e =>
      rw [hrest] at hmagic
      cases hmagic
  | ok t =>
      rw [hrest] at hmagic
      have hmagic : t.magic = 18446744073709551613 := Option.some.inj hmagic
      rw [hfirst, hrest] at hwhole
      obtain ⟨hlater, hself⟩ := hagain _ t hwhole
      refine ⟨t, hmagic, hfirst, rfl, hwhole, ?_, hself⟩
      exact hlater 18446744073709551613 3 (by decide) (by rw [hmagic]; decide)
        (by rw [hmagic]; decide)

end PerfectKeys
