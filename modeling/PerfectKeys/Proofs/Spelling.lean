import PerfectKeys.Magic.Scheme

/-!
# Texts that spell names

A name is kept as octets and given as a text. The two agree: the octets of a name's
text are the name's own, so a text is accepted as a name exactly when it is the text
of that name. A text is the text of some name exactly when it has a character and all
its characters are printable ASCII.

Schemes compare names in one of two ways, and both can be said of texts alone:
`Equates` asks for the same text, or for the same text up to the case of ASCII
letters. A text that is equated with a name's text is itself the text of a name.
-/

namespace PerfectKeys

/-! ## Octets and their characters -/

namespace Octet

theorem toNat_toChar (o : Octet) : o.toChar.toNat = o.toNat := rfl

theorem toChar_inj {o o' : Octet} (h : o.toChar = o'.toChar) : o = o' := by
  have hn : o.toChar.toNat = o'.toChar.toNat := by rw [h]
  exact UInt8.toNat_inj.mp hn

theorem isGraphic_iff {o : Octet} : o.IsGraphic ↔ 0x21 ≤ o.toNat ∧ o.toNat ≤ 0x7E := by
  unfold IsGraphic
  rw [UInt8.le_iff_toNat_le, UInt8.le_iff_toNat_le]
  rfl

theorem toNat_lower (o : Octet) :
    o.lower.toNat = if 0x41 ≤ o.toNat ∧ o.toNat ≤ 0x5A then o.toNat + 0x20 else o.toNat := by
  have h1 : (0x41 ≤ o ∧ o ≤ 0x5A) ↔ (0x41 ≤ o.toNat ∧ o.toNat ≤ 0x5A) := by
    rw [UInt8.le_iff_toNat_le, UInt8.le_iff_toNat_le]
    rfl
  unfold lower
  by_cases h : 0x41 ≤ o ∧ o ≤ 0x5A
  · rw [if_pos h, if_pos (h1.mp h), UInt8.toNat_add]
    have := (h1.mp h).2
    show (o.toNat + 0x20) % 256 = o.toNat + 0x20
    omega
  · rw [if_neg h, if_neg (fun h' => h (h1.mpr h'))]

end Octet

/-- A character's number after its case is dropped. -/
theorem toNat_toLower (c : Char) :
    c.toLower.toNat = if 0x41 ≤ c.toNat ∧ c.toNat ≤ 0x5A then c.toNat + 0x20 else c.toNat := by
  have h1 : (c.val ≥ 'A'.val ∧ c.val ≤ 'Z'.val) ↔ (0x41 ≤ c.toNat ∧ c.toNat ≤ 0x5A) := by
    rw [ge_iff_le, UInt32.le_iff_toNat_le, UInt32.le_iff_toNat_le]
    rfl
  unfold Char.toLower
  by_cases h : c.val ≥ 'A'.val ∧ c.val ≤ 'Z'.val
  · rw [dif_pos h, if_pos (h1.mp h)]
    have := (h1.mp h).2
    show (c.val + ('a'.val - 'A'.val)).toNat = c.toNat + 0x20
    rw [UInt32.toNat_add]
    show (c.toNat + 0x20) % 4294967296 = c.toNat + 0x20
    omega
  · rw [dif_neg h, if_neg (fun h' => h (h1.mpr h'))]

theorem toChar_lower (o : Octet) : o.lower.toChar = o.toChar.toLower := by
  refine Char.toNat_inj.mp ?_
  rw [Octet.toNat_toChar, Octet.toNat_lower, toNat_toLower, Octet.toNat_toChar]

/-! ## The octets of a text -/

/-- An octet below 128 is the UTF-8 form of its character. -/
theorem utf8EncodeChar_toChar {o : Octet} (h : o.toNat < 128) :
    String.utf8EncodeChar o.toChar = [o] := by
  have hsize : o.toChar.utf8Size = 1 := by
    rw [Char.utf8Size_eq_one_iff, UInt32.le_iff_toNat_le]
    exact Nat.le_of_lt_succ h
  rw [String.utf8EncodeChar_eq_singleton hsize]
  refine congrArg (fun x => [x]) (UInt8.toNat_inj.mp ?_)
  show o.toNat % 256 = o.toNat
  omega

/-- Beyond ASCII the UTF-8 form of a character has large octets only. -/
theorem le_of_mem_utf8EncodeChar {c : Char} (h : 128 ≤ c.toNat) {o : Octet}
    (ho : o ∈ String.utf8EncodeChar c) : 128 ≤ o.toNat := by
  have hv : 128 ≤ c.val.toNat := h
  -- each octet of the form is some bits of the number with a mark above them
  have marked (bits range mark : Nat) (hrange : 0 < range) (hmark : 128 ≤ mark)
      (hsum : range + mark ≤ 256) : 128 ≤ (UInt8.ofNat (bits % range + mark)).toNat := by
    have hbits := Nat.mod_lt bits hrange
    rw [UInt8.toNat_ofNat_of_lt' (Nat.lt_of_lt_of_le (Nat.add_lt_add_right hbits mark) hsum)]
    omega
  unfold String.utf8EncodeChar at ho
  dsimp only at ho
  rw [if_neg (by omega)] at ho
  split at ho
  · simp only [List.mem_cons, List.not_mem_nil, or_false] at ho
    rcases ho with rfl | rfl
    all_goals exact marked _ _ _ (by omega) (by omega) (by omega)
  · split at ho
    · simp only [List.mem_cons, List.not_mem_nil, or_false] at ho
      rcases ho with rfl | rfl | rfl
      all_goals exact marked _ _ _ (by omega) (by omega) (by omega)
    · simp only [List.mem_cons, List.not_mem_nil, or_false] at ho
      rcases ho with rfl | rfl | rfl | rfl
      all_goals exact marked _ _ _ (by omega) (by omega) (by omega)

/-- A character with a small number is the character of an octet. -/
theorem exists_toChar {c : Char} (h : c.toNat < 256) : ∃ o : Octet, o.toChar = c := by
  refine ⟨UInt8.ofNat c.toNat, Char.toNat_inj.mp ?_⟩
  rw [Octet.toNat_toChar, UInt8.toNat_ofNat_of_lt' h]

/-- Printable ASCII characters are the characters of printable octets. -/
theorem exists_map_toChar_eq {cs : List Char}
    (h : ∀ c ∈ cs, 0x21 ≤ c.toNat ∧ c.toNat ≤ 0x7E) :
    ∃ octets : List Octet, octets.map Octet.toChar = cs ∧ ∀ o ∈ octets, o.IsGraphic := by
  induction cs with
  | nil => exact ⟨[], rfl, fun o ho => nomatch ho⟩
  | cons c cs ih =>
      obtain ⟨hc, hcs⟩ := List.forall_mem_cons.mp h
      obtain ⟨o, rfl⟩ := exists_toChar (Nat.lt_of_le_of_lt hc.2 (by decide))
      obtain ⟨octets, rfl, hgraphic⟩ := ih hcs
      exact ⟨o :: octets, rfl, List.forall_mem_cons.mpr ⟨Octet.isGraphic_iff.mpr hc, hgraphic⟩⟩

/-- Octets below 128 are the UTF-8 form of their characters. -/
theorem flatMap_utf8EncodeChar_map_toChar {octets : List Octet} (h : ∀ o ∈ octets, o.toNat < 128) :
    (octets.map Octet.toChar).flatMap String.utf8EncodeChar = octets := by
  induction octets with
  | nil => rfl
  | cons o octets ih =>
      rw [List.map_cons, List.flatMap_cons, utf8EncodeChar_toChar (h o List.mem_cons_self),
        ih (fun o' ho' => h o' (List.mem_cons_of_mem _ ho'))]
      rfl

/-- Octets below 128 tell the characters they came from. -/
theorem map_toChar_flatMap_utf8EncodeChar {cs : List Char}
    (h : ∀ o ∈ cs.flatMap String.utf8EncodeChar, o.toNat < 128) :
    (cs.flatMap String.utf8EncodeChar).map Octet.toChar = cs := by
  induction cs with
  | nil => rfl
  | cons c cs ih =>
      have hc : c.toNat < 128 := by
        refine Nat.lt_of_not_le (fun hge => ?_)
        obtain ⟨o, ho⟩ := List.exists_mem_of_ne_nil _ String.utf8EncodeChar_ne_nil
        have hsmall := h o (List.mem_flatMap.mpr ⟨c, List.mem_cons_self, ho⟩)
        have hbig := le_of_mem_utf8EncodeChar hge ho
        omega
      obtain ⟨o, rfl⟩ := exists_toChar (Nat.lt_trans hc (by decide))
      have hrest : ∀ o' ∈ cs.flatMap String.utf8EncodeChar, o'.toNat < 128 := by
        intro o' ho'
        rw [List.flatMap_cons] at h
        exact h o' (List.mem_append_right _ ho')
      rw [List.flatMap_cons, utf8EncodeChar_toChar hc, List.map_append, ih hrest]
      rfl

/-- Octets are decoded to the text whose octets they are, and only to that. -/
theorem fromUTF8?_eq_some_iff {octets : List Octet} {text : String} :
    String.fromUTF8? ⟨octets.toArray⟩ = some text ↔ octets = octetsOf text := by
  have hbytes : (⟨octets.toArray⟩ : ByteArray) = text.toByteArray ↔ octets = octetsOf text := by
    rw [← String.utf8Encode_toList, List.utf8Encode, ByteArray.ext_iff, List.data_toByteArray]
    exact ⟨List.toArray_inj, congrArg List.toArray⟩
  rw [← hbytes]
  unfold String.fromUTF8?
  constructor
  · intro h
    split at h
    · cases h
      rfl
    · cases h
  · intro h
    rw [dif_pos (h ▸ text.isValidUTF8)]
    exact congrArg some (String.toByteArray_inj.mp h)

theorem octetsOf_injective {a b : String} (h : octetsOf a = octetsOf b) : a = b := by
  have ha := fromUTF8?_eq_some_iff.mpr (rfl : octetsOf a = octetsOf a)
  rw [fromUTF8?_eq_some_iff.mpr h] at ha
  exact (Option.some.inj ha).symm

/-! ## Which texts are names -/

namespace Mnemonic

theorem lt_of_mem_octets {m : Mnemonic} {o : Octet} (h : o ∈ m.octets) : o.toNat < 128 :=
  Nat.lt_of_le_of_lt (Octet.isGraphic_iff.mp (m.graphic o h)).2 (by decide)

theorem graphic_of_mem_chars {m : Mnemonic} {c : Char} (h : c ∈ m.chars) :
    0x21 ≤ c.toNat ∧ c.toNat ≤ 0x7E := by
  obtain ⟨o, ho, rfl⟩ := List.mem_map.mp h
  exact Octet.isGraphic_iff.mp (m.graphic o ho)

/-- The blank does not occur in a name, and neither does what comes before it. -/
theorem ne_of_mem_chars {m : Mnemonic} {c d : Char} (h : c ∈ m.chars) (hd : d.toNat ≤ 0x20) :
    c ≠ d := by
  intro heq
  have hgraphic := (graphic_of_mem_chars h).1
  rw [heq] at hgraphic
  omega

theorem toList_text (m : Mnemonic) : m.text.toList = m.octets.map Octet.toChar :=
  String.toList_ofList

theorem octetsOf_text (m : Mnemonic) : octetsOf m.text = m.octets := by
  unfold octetsOf
  rw [toList_text]
  exact flatMap_utf8EncodeChar_map_toChar (fun o ho => lt_of_mem_octets ho)

theorem eq_of_octets_eq {a b : Mnemonic} (h : a.octets = b.octets) : a = b := by
  cases a
  cases b
  cases h
  rfl

theorem ofOctets_eq_ok_iff {octets : List Octet} {m : Mnemonic} :
    ofOctets octets = .ok m ↔ octets = m.octets := by
  refine ⟨fun h => ?_, fun h => ?_⟩
  · unfold ofOctets at h
    split at h
    · cases h
    · split at h
      · cases h
      · cases h; rfl
  · rw [h]
    exact ofOctets_octets m

theorem ofOctets_eq_error_iff {octets : List Octet} {e : MnemonicError} :
    ofOctets octets = .error e ↔ octets = [] ∧ e = .empty ∨
      ∃ o i, firstIllegal octets = some (o, i) ∧ e = .illegalOctet o i := by
  unfold ofOctets
  by_cases hnil : octets = []
  · subst hnil
    simp [firstIllegal, eq_comm]
  · rw [dif_neg hnil]
    split
    · next o i hfirst =>
      refine ⟨fun h => ?_, fun h => ?_⟩
      · cases h
        exact Or.inr ⟨o, i, hfirst, rfl⟩
      · rcases h with ⟨h, -⟩ | ⟨o', i', h, rfl⟩
        · exact absurd h hnil
        · rw [hfirst] at h
          cases h
          rfl
    · next hfirst => simp [hnil, hfirst]

/-- **A text is accepted as a name exactly when it is the name's text.** -/
theorem ofString_eq_ok_iff {text : String} {m : Mnemonic} :
    ofString text = .ok m ↔ text = m.text := by
  unfold ofString
  rw [ofOctets_eq_ok_iff]
  refine ⟨fun h => ?_, fun h => ?_⟩
  · -- the octets are those of a name, so each is a character of the text
    have hsmall : ∀ o ∈ octetsOf text, o.toNat < 128 := by
      rw [h]
      exact fun o ho => lt_of_mem_octets ho
    refine String.toList_inj.mp ?_
    rw [toList_text, ← h]
    exact (map_toChar_flatMap_utf8EncodeChar hsmall).symm
  · rw [h]
    exact octetsOf_text m

theorem text_inj {a b : Mnemonic} : a.text = b.text ↔ a = b := by
  refine ⟨fun h => eq_of_octets_eq ?_, fun h => by rw [h]⟩
  rw [← octetsOf_text, h, octetsOf_text]

theorem chars_inj {a b : Mnemonic} (h : a.chars = b.chars) : a = b := by
  refine text_inj.mp ?_
  unfold text
  rw [h]

/-- The names' texts are the non-empty texts of printable ASCII characters. -/
theorem exists_text_eq_iff {text : String} :
    (∃ m : Mnemonic, m.text = text) ↔
      text.toList ≠ [] ∧ ∀ c ∈ text.toList, 0x21 ≤ c.toNat ∧ c.toNat ≤ 0x7E := by
  refine ⟨fun h => ?_, fun h => ?_⟩
  · obtain ⟨m, rfl⟩ := h
    rw [toList_text]
    exact ⟨by simpa using m.ne_nil, fun c hc => graphic_of_mem_chars hc⟩
  · obtain ⟨hne, hc⟩ := h
    obtain ⟨octets, hmap, hgraphic⟩ := exists_map_toChar_eq hc
    refine ⟨⟨octets, fun hnil => hne ?_, hgraphic⟩, ?_⟩
    · rw [← hmap, hnil]
      rfl
    · refine String.toList_inj.mp ?_
      rw [toList_text]
      exact hmap

end Mnemonic

/-! ## Which texts count as the same -/

/-- The texts are the same when the case of ASCII letters is dropped. -/
def EqualIgnoringCase (a b : String) : Prop :=
  a.toList.map Char.toLower = b.toList.map Char.toLower

/-- The texts count as the same name: they are equal, or equal up to case. -/
def Scheme.Equates (s : Scheme) (a b : String) : Prop :=
  if s.foldsCase then EqualIgnoringCase a b else a = b

instance (a b : String) : Decidable (EqualIgnoringCase a b) :=
  inferInstanceAs (Decidable (a.toList.map Char.toLower = b.toList.map Char.toLower))

instance (s : Scheme) (a b : String) : Decidable (s.Equates a b) :=
  inferInstanceAs (Decidable (if s.foldsCase then EqualIgnoringCase a b else a = b))

theorem equalIgnoringCase_text {a b : Mnemonic} :
    EqualIgnoringCase a.text b.text ↔ a.octets.map Octet.lower = b.octets.map Octet.lower := by
  have hlower (m : Mnemonic) :
      m.text.toList.map Char.toLower = (m.octets.map Octet.lower).map Octet.toChar := by
    rw [Mnemonic.toList_text, List.map_map, List.map_map]
    exact List.map_congr_left fun o _ => (toChar_lower o).symm
  unfold EqualIgnoringCase
  rw [hlower, hlower]
  exact List.map_inj_right fun _ _ => Octet.toChar_inj

/-- Dropping case keeps a character inside or outside printable ASCII. -/
theorem graphic_toLower_iff (c : Char) :
    (0x21 ≤ c.toLower.toNat ∧ c.toLower.toNat ≤ 0x7E) ↔ 0x21 ≤ c.toNat ∧ c.toNat ≤ 0x7E := by
  rw [toNat_toLower]
  split <;> omega

/-- What equals a name up to case is a name. -/
theorem exists_text_of_equalIgnoringCase {m : Mnemonic} {text : String}
    (h : EqualIgnoringCase m.text text) : ∃ m' : Mnemonic, m'.text = text := by
  obtain ⟨hne, hm⟩ := Mnemonic.exists_text_eq_iff.mp ⟨m, rfl⟩
  refine Mnemonic.exists_text_eq_iff.mpr ⟨?_, ?_⟩
  · intro hnil
    unfold EqualIgnoringCase at h
    rw [hnil] at h
    exact hne (List.map_eq_nil_iff.mp h)
  · intro c hc
    have hmem : c.toLower ∈ m.text.toList.map Char.toLower := by
      rw [h]
      exact List.mem_map_of_mem hc
    obtain ⟨d, hd, he⟩ := List.mem_map.mp hmem
    rw [← graphic_toLower_iff, ← he, graphic_toLower_iff]
    exact hm d hd

namespace Scheme

/-- Names match when their texts count as the same. -/
theorem matches_iff_equates {s : Scheme} {a b : Mnemonic} :
    s.Matches a b ↔ s.Equates a.text b.text := by
  unfold Matches spelling Equates
  split
  · exact equalIgnoringCase_text.symm
  · rw [Mnemonic.text_inj]
    exact ⟨Mnemonic.eq_of_octets_eq, fun h => h ▸ rfl⟩

theorem equates_refl (s : Scheme) (text : String) : s.Equates text text := by
  unfold Equates
  split
  · rfl
  · rfl

/-- What counts as the same as a name is a name. -/
theorem exists_text_of_equates {s : Scheme} {m : Mnemonic} {text : String}
    (h : s.Equates m.text text) : ∃ m' : Mnemonic, m'.text = text := by
  unfold Equates at h
  split at h
  · exact exists_text_of_equalIgnoringCase h
  · exact ⟨m, h⟩

end Scheme

end PerfectKeys
