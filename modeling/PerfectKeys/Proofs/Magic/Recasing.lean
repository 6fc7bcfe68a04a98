import Mathlib.Data.List.Forall2
import PerfectKeys.Proofs.Magic.Lookup

/-!
# Names in another case

Case is treated in four ways on the way from a text to an entry. A text is a name whatever its
case is, and the octet at fault is never a letter. Duplicates and lookups ignore the case of
letters. A slot ignores a bit of every octet, which is the case of letters and more.

Under a scheme that ignores case these agree. Texts that differ in case only are refused for the
same reason, or they spell names that match one by one, and matching names repeat at the same
positions and have the same slots. So a search cannot tell such texts apart, nor can a lookup in
the table that it returns.
-/

namespace PerfectKeys

/-! ## Texts in another case -/

namespace Octet

theorem isGraphic_lower_iff (o : Octet) : o.lower.IsGraphic ↔ o.IsGraphic := by
  rw [isGraphic_iff, isGraphic_iff, toNat_lower]
  split <;> omega

/-- Letters are printable, so nothing else changes. -/
theorem lower_of_not_isGraphic {o : Octet} (h : ¬ o.IsGraphic) : o.lower = o := by
  rw [isGraphic_iff] at h
  refine UInt8.toNat_inj.mp ?_
  rw [toNat_lower, if_neg (by omega)]

end Octet

/-- Dropping the case of a character drops that of its octets. -/
theorem utf8EncodeChar_toLower (c : Char) :
    String.utf8EncodeChar c.toLower = (String.utf8EncodeChar c).map Octet.lower := by
  rcases Nat.lt_or_ge c.toNat 128 with hc | hc
  · obtain ⟨o, rfl⟩ := exists_toChar (Nat.lt_trans hc (by decide))
    have ho : o.toNat < 128 := hc
    have hlower : o.lower.toNat < 128 := by
      rw [Octet.toNat_lower]
      split <;> omega
    rw [← toChar_lower, utf8EncodeChar_toChar ho, utf8EncodeChar_toChar hlower]
    rfl
  · -- beyond ASCII there are no letters, neither among the characters nor among the octets
    have hlower : c.toLower = c := by
      refine Char.toNat_inj.mp ?_
      rw [toNat_toLower, if_neg (by omega)]
    have hoctets : (String.utf8EncodeChar c).map Octet.lower
        = (String.utf8EncodeChar c).map id := by
      refine List.map_congr_left fun o ho => Octet.lower_of_not_isGraphic ?_
      have hlarge := le_of_mem_utf8EncodeChar hc ho
      rw [Octet.isGraphic_iff]
      omega
    rw [hlower, hoctets, List.map_id]

theorem map_lower_octetsOf (text : String) :
    (octetsOf text).map Octet.lower
      = (text.toList.map Char.toLower).flatMap String.utf8EncodeChar := by
  unfold octetsOf
  rw [List.map_flatMap, List.flatMap_map]
  exact List.flatMap_congr fun c _ => (utf8EncodeChar_toLower c).symm

namespace Mnemonic

/-- The octet at fault is no letter, so it stays where it is and what it is. -/
theorem firstIllegal_map_lower (octets : List Octet) :
    firstIllegal (octets.map Octet.lower) = firstIllegal octets := by
  have hgraphic : (fun p : Octet × Nat => decide (¬ p.1.IsGraphic)) ∘ Prod.map Octet.lower id
      = fun p => decide (¬ p.1.IsGraphic) := by
    funext p
    exact decide_eq_decide.mpr (not_congr (Octet.isGraphic_lower_iff p.1))
  unfold firstIllegal
  rw [List.zipIdx_map, List.find?_map, hgraphic]
  cases h : octets.zipIdx.find? fun p => decide (¬ p.1.IsGraphic) with
  | none => rfl
  | some p =>
      have hillegal := List.find?_some h
      rw [decide_eq_true_eq] at hillegal
      obtain ⟨o, i⟩ := p
      show some (o.lower, i) = some (o, i)
      rw [Octet.lower_of_not_isGraphic hillegal]

/-- **Texts that differ in case only are refused with the same error.** -/
theorem ofString_eq_error_of_equalIgnoringCase {a b : String} {e : MnemonicError}
    (h : EqualIgnoringCase a b) (he : ofString a = .error e) : ofString b = .error e := by
  have hoctets : (octetsOf a).map Octet.lower = (octetsOf b).map Octet.lower := by
    rw [map_lower_octetsOf, map_lower_octetsOf, h]
  unfold ofString at he ⊢
  rw [ofOctets_eq_error_iff, ← firstIllegal_map_lower, ← List.map_eq_nil_iff] at he ⊢
  rwa [← hoctets]

end Mnemonic

/-! ## Names in another case -/

/-- The texts are the same but for their case, and stand for the same number. -/
def Recased (p q : String × UInt16) : Prop := EqualIgnoringCase p.1 q.1 ∧ p.2 = q.2

/-- The names are the same to the scheme, and stand for the same number. -/
def Scheme.Alike (s : Scheme) (a b : CodedName) : Prop :=
  s.Matches a.name b.name ∧ a.code = b.code

theorem map_eq_map_of_forall₂ {α β γ : Type} {R : α → β → Prop} {f : α → γ} {g : β → γ}
    {l : List α} {l' : List β} (h : List.Forall₂ R l l') (hfg : ∀ a b, R a b → f a = g b) :
    l.map f = l'.map g := by
  rw [← List.forall₂_eq_eq_eq, List.forall₂_map_left_iff, List.forall₂_map_right_iff]
  exact h.imp hfg

section Names

variable {s : Scheme}

theorem equates_iff_of_foldsCase (hf : s.foldsCase = true) {a b : String} :
    s.Equates a b ↔ EqualIgnoringCase a b := by
  unfold Scheme.Equates
  rw [if_pos hf]

/-- Texts in another case are refused alike, or spell names that match one by one. -/
theorem readNames_recased (hf : s.foldsCase = true) {texts texts' : List (String × UInt16)}
    (h : List.Forall₂ Recased texts texts') :
    (∃ e, readNames texts = .error e ∧ readNames texts' = .error e) ∨
      ∃ names names', texts = names.map CodedName.given ∧ texts' = names'.map CodedName.given ∧
        List.Forall₂ s.Alike names names' := by
  induction h with
  | nil => exact Or.inr ⟨[], [], rfl, rfl, .nil⟩
  | @cons p q texts texts' hpq _ ih =>
      obtain ⟨a, code⟩ := p
      obtain ⟨b, code'⟩ := q
      obtain ⟨hcase, rfl⟩ : EqualIgnoringCase a b ∧ code = code' := hpq
      cases ha : Mnemonic.ofString a with
      | error e =>
          have hb := Mnemonic.ofString_eq_error_of_equalIgnoringCase hcase ha
          exact Or.inl ⟨e, by rw [readNames_cons, ha], by rw [readNames_cons, hb]⟩
      | ok m =>
          obtain rfl := Mnemonic.ofString_eq_ok_iff.mp ha
          obtain ⟨m', rfl⟩ := exists_text_of_equalIgnoringCase hcase
          have hb : Mnemonic.ofString m'.text = .ok m' := Mnemonic.ofString_eq_ok_iff.mpr rfl
          rcases ih with ⟨e, he, he'⟩ | ⟨names, names', rfl, rfl, hnames⟩
          · refine Or.inl ⟨e, ?_, ?_⟩
            · rw [readNames_cons, ha, he]
              rfl
            · rw [readNames_cons, hb, he']
              rfl
          · have hm : s.Matches m m' :=
              Scheme.matches_iff_equates.mpr ((equates_iff_of_foldsCase hf).mpr hcase)
            exact Or.inr ⟨⟨m, code⟩ :: names, ⟨m', code⟩ :: names', rfl, rfl,
              .cons ⟨hm, rfl⟩ hnames⟩

variable {names names' : List CodedName}

theorem keepsApart_iff_of_alike (h : List.Forall₂ s.Alike names names') (magic : UInt64) :
    s.KeepsApart names' magic ↔ s.KeepsApart names magic := by
  have hslots : names.map (fun n => s.slot magic n.name)
      = names'.map fun n => s.slot magic n.name :=
    map_eq_map_of_forall₂ h fun a b hab => Scheme.slot_eq_of_matches hab.1 magic
  unfold Scheme.KeepsApart
  rw [hslots]

theorem duplicates_iff_of_alike (h : List.Forall₂ s.Alike names names') (i : Nat) :
    s.Duplicates (names'.map CodedName.given) i ↔ s.Duplicates (names.map CodedName.given) i := by
  -- whether a position repeats an earlier one depends on the spellings only
  have hspellings : names.map (fun n => s.spelling n.name)
      = names'.map fun n => s.spelling n.name :=
    map_eq_map_of_forall₂ h fun a b hab => hab.1
  have hmap (l : List CodedName) : s.Duplicates (l.map CodedName.given) i ↔
      RepeatsAt id (l.map fun n => s.spelling n.name) i := by
    rw [Scheme.duplicates_given_iff, repeatsAt_map_iff]
    rfl
  rw [hmap, hmap, hspellings]

theorem firstDuplicate?_eq_of_alike (h : List.Forall₂ s.Alike names names') :
    s.firstDuplicate? names' = s.firstDuplicate? names := by
  refine Option.ext fun i => ?_
  have hset : {i | s.Duplicates (names'.map CodedName.given) i}
      = {i | s.Duplicates (names.map CodedName.given) i} :=
    Set.ext fun i => duplicates_iff_of_alike h i
  rw [Scheme.firstDuplicate?_eq_some_iff, Scheme.firstDuplicate?_eq_some_iff, hset]

end Names

/-! ## Lookups in another case -/

namespace MagicTable

/-- A lookup finds nothing in either table, or the entries at one position. -/
def FindAlike (t t' : MagicTable) (q q' : String) : Prop :=
  t.lookup q = none ∧ t'.lookup q' = none ∨
    ∃ (i : Nat) (e e' : MagicEntry), t.entries[i]? = some e ∧ t'.entries[i]? = some e' ∧
      t.lookup q = some e ∧ t'.lookup q' = some e'

theorem findAlike_of_recased {t t' : MagicTable} (h : t.Perfect) (h' : t'.Perfect)
    (hf : t.scheme.foldsCase = true) (hf' : t'.scheme.foldsCase = true)
    (hentries : List.Forall₂ (fun e e' => EqualIgnoringCase e.name.text e'.name.text)
      t.entries t'.entries) {q q' : String} (hq : EqualIgnoringCase q q') :
    t.FindAlike t' q q' := by
  obtain ⟨hlength, hcase⟩ := List.forall₂_iff_get.mp hentries
  cases hl : t.lookup q with
  | some e =>
      obtain ⟨he, hname⟩ := (lookup_eq_some_iff h).mp hl
      rw [equates_iff_of_foldsCase hf] at hname
      obtain ⟨i, hi, rfl⟩ := List.getElem_of_mem he
      have hi' : i < t'.entries.length := hlength ▸ hi
      have hname' : EqualIgnoringCase t'.entries[i].name.text q' :=
        (hcase i hi hi').symm.trans (hname.trans hq)
      refine Or.inr ⟨i, t.entries[i], t'.entries[i], List.getElem?_eq_getElem hi,
        List.getElem?_eq_getElem hi', hl, (lookup_eq_some_iff h').mpr ?_⟩
      exact ⟨List.getElem_mem hi', (equates_iff_of_foldsCase hf').mpr hname'⟩
  | none =>
      have hno := (lookup_eq_none_iff h).mp hl
      refine Or.inl ⟨hl, (lookup_eq_none_iff h').mpr fun e' he' hname' => ?_⟩
      rw [equates_iff_of_foldsCase hf'] at hname'
      obtain ⟨i, hi', rfl⟩ := List.getElem_of_mem he'
      have hi : i < t.entries.length := hlength ▸ hi'
      refine hno t.entries[i] (List.getElem_mem hi) ((equates_iff_of_foldsCase hf).mpr ?_)
      exact (hcase i hi hi').trans (hname'.trans hq.symm)

end MagicTable

/-! ## Searches -/

/-- The answers are the same but for the case of the names: the same error, or tables with the
same magic value, numbers and slots, in which lookups find entries at the same positions. -/
inductive SameButForCase :
    Except SearchError MagicTable → Except SearchError MagicTable → Prop where
  | refused {e : SearchError} : SameButForCase (.error e) (.error e)
  | found {t t' : MagicTable} :
      t.magic = t'.magic →
      (t.entries.map fun e => (e.code, e.slot)) = (t'.entries.map fun e => (e.code, e.slot)) →
      (∀ q q', EqualIgnoringCase q q' → t.FindAlike t' q q') →
      SameButForCase (.ok t) (.ok t')

section Searches

variable {s : Scheme} {names names' : List CodedName}

theorem sameButForCase_ofNames (hf : s.foldsCase = true) {magic : UInt64}
    (happ : s.KeepsApart names magic) (h : List.Forall₂ s.Alike names names') :
    SameButForCase (.ok (.ofNames s magic names)) (.ok (.ofNames s magic names')) := by
  have hperfect := MagicTable.perfect_ofNames happ
  have hperfect' := MagicTable.perfect_ofNames ((keepsApart_iff_of_alike h magic).mpr happ)
  refine .found rfl ?_ fun q q' hq =>
    MagicTable.findAlike_of_recased hperfect hperfect' hf hf ?_ hq
  · unfold MagicTable.ofNames
    rw [List.map_map, List.map_map]
    exact map_eq_map_of_forall₂ h fun a b hab =>
      Prod.ext hab.2 (Scheme.slot_eq_of_matches hab.1 magic)
  · refine List.forall₂_map_left_iff.mpr (List.forall₂_map_right_iff.mpr (h.imp fun a b hab => ?_))
    exact (equates_iff_of_foldsCase hf).mp (Scheme.matches_iff_equates.mp hab.1)

theorem sameButForCase_search_given (hf : s.foldsCase = true)
    (h : List.Forall₂ s.Alike names names') (settings : SearchSettings) :
    SameButForCase (search s (names.map CodedName.given) settings).value
      (search s (names'.map CodedName.given) settings).value := by
  rw [value_search, value_search, Scheme.examine_map_given, Scheme.examine_map_given,
    ← h.length_eq, firstDuplicate?_eq_of_alike h]
  by_cases hfit : s.slots < names.length
  · rw [if_pos hfit, if_pos hfit]
    exact .refused
  · rw [if_neg hfit, if_neg hfit]
    cases s.firstDuplicate? names with
    | some i => exact .refused
    | none =>
        have hsame : (fun m => decide (s.KeepsApart names' m))
            = fun m => decide (s.KeepsApart names m) :=
          funext fun m => decide_eq_decide.mpr (keepsApart_iff_of_alike h m)
        dsimp only
        rw [hsame]
        cases hfind : settings.candidates.find? fun m => decide (s.KeepsApart names m) with
        | none => exact .refused
        | some magic =>
            exact sameButForCase_ofNames hf (find?_keepsApart_eq_some_iff.mp hfind).1.2 h

end Searches

/--
**Under a scheme that ignores case, case does not matter from search to lookup.**

Texts that are the same but for their case, with the same numbers, are searched for with the
same answer: the same error, or tables that differ in the case of the names only, in which
texts that are the same but for their case find the entries at one position.
-/
theorem search_recase {scheme : Scheme} (hf : scheme.foldsCase = true)
    {texts texts' : List (String × UInt16)} (h : List.Forall₂ Recased texts texts')
    (settings : SearchSettings) :
    SameButForCase (search scheme texts settings).value (search scheme texts' settings).value := by
  rcases readNames_recased hf h with ⟨e, he, he'⟩ | ⟨names, names', rfl, rfl, hnames⟩
  · rw [value_search, value_search, Scheme.examine_of_error he, Scheme.examine_of_error he']
    exact .refused
  · exact sameButForCase_search_given hf hnames settings

/-- Two spellings of three services get one table, and a third spelling finds the same entry. -/
theorem search_recase_services :
    let texts := [("submission", 587), ("submissions", 465), ("pop3s", 995)]
    let texts' := [("Submission", 587), ("SUBMISSIONS", 465), ("POP3S", 995)]
    Scheme.services.foldsCase = true ∧ List.Forall₂ Recased texts texts' ∧
      ∃ t t', (search .services texts .preset).value = .ok t ∧
        (search .services texts' .preset).value = .ok t' ∧ t.magic = t'.magic ∧
        t.FindAlike t' "pop3S" "Pop3s" := by
  intro texts texts'
  have hcase : List.Forall₂ Recased texts texts' := by
    refine .cons ⟨?_, rfl⟩ (.cons ⟨?_, rfl⟩ (.cons ⟨?_, rfl⟩ .nil))
    all_goals decide +kernel
  have hfound : (search .services texts .preset).value.toOption.isSome = true := by
    decide +kernel
  have hsame := @search_recase .services rfl _ _ hcase .preset
  refine ⟨rfl, hcase, ?_⟩
  cases h : (search .services texts .preset).value with
  | error e =>
      rw [h] at hfound
      cases hfound
  | ok t =>
      rw [h] at hsame
      generalize (search .services texts' .preset).value = r at hsame
      cases hsame with
      | @found _ t' hmagic _ hlookup =>
          exact ⟨t, t', rfl, rfl, hmagic, hlookup _ _ (by decide +kernel)⟩

end PerfectKeys
