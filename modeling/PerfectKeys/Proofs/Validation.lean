import Mathlib.Data.Nat.Find
import Mathlib.Order.Bounds.Basic
import PerfectKeys.Proofs.Spelling

/-!
# Which octets and which texts are names

A name may be given as octets or as a text. Octets are checked one by one and then decoded; for
a text it is enough to check its octets, and the text is the name. Both ways refuse with the
first octet at fault and with its position.

Decoding could find something wrong that the check let pass, and it has an error for that. It
never does, because octets that pass the check are all ASCII.

In a text, what stands in front of the first character at fault is ASCII, too. So the position
counts characters as well as octets, and the octet there is the first one of a character, no
octet from the middle of one.
-/

namespace PerfectKeys

/-! ## Decoding -/

/-- How many octets belong to the longest text that the octets start with. -/
def decodableUpTo (octets : List Octet) : Nat :=
  Nat.findGreatest (fun n => (⟨(octets.take n).toArray⟩ : ByteArray).IsValidUTF8) octets.length

theorem decodableUpTo_lt {octets : List Octet} (h : String.fromUTF8? ⟨octets.toArray⟩ = none) :
    decodableUpTo octets < octets.length := by
  have hinvalid : ¬ (⟨octets.toArray⟩ : ByteArray).IsValidUTF8 := by
    intro hvalid
    unfold String.fromUTF8? at h
    rw [dif_pos hvalid] at h
    cases h
  have hvalid : (⟨(octets.take (decodableUpTo octets)).toArray⟩ : ByteArray).IsValidUTF8 :=
    Nat.findGreatest_spec
      (P := fun n => (⟨(octets.take n).toArray⟩ : ByteArray).IsValidUTF8)
      (Nat.zero_le octets.length) ByteArray.isValidUTF8_empty
  refine lt_of_le_of_ne (Nat.findGreatest_le _) fun hall => hinvalid ?_
  rwa [hall, List.take_length] at hvalid

namespace Mnemonic

/-- The check that octets have to pass. -/
def check (octets : List Octet) : Except MnemonicError Unit :=
  if octets = [] then .error .empty
  else
    match firstIllegal octets with
    | some (octet, index) => .error (.illegalOctet octet index)
    | none => .ok ()

/-- The text that octets are the UTF-8 form of. If there is none, the octet at fault is the one
behind the longest part that could be decoded. -/
def decode (octets : List Octet) : Except MnemonicError String :=
  match h : String.fromUTF8? ⟨octets.toArray⟩ with
  | some text => .ok text
  | none =>
      let index := decodableUpTo octets
      .error (.illegalOctet (octets.get ⟨index, decodableUpTo_lt h⟩) index)

/-- The text of the name that is given as octets. -/
def textOfOctets (octets : List Octet) : Except MnemonicError String := do
  check octets
  decode octets

/-- The text of the name that is given as a text: it is kept as it is. -/
def textOfString (text : String) : Except MnemonicError String := do
  check (octetsOf text)
  return text

theorem check_eq (octets : List Octet) : check octets = (ofOctets octets).map fun _ => () := by
  unfold check ofOctets
  by_cases hnil : octets = []
  · rw [if_pos hnil, dif_pos hnil]
    rfl
  · rw [if_neg hnil, dif_neg hnil]
    split
    · next h =>
      split
      · next h' =>
        rw [h] at h'
        cases h'
        rfl
      · next h' =>
        rw [h] at h'
        cases h'
    · next h =>
      split
      · next h' =>
        rw [h] at h'
        cases h'
      · rfl

theorem decode_eq_ok_iff {octets : List Octet} {text : String} :
    decode octets = .ok text ↔ octets = octetsOf text := by
  rw [← fromUTF8?_eq_some_iff]
  unfold decode
  split
  · next other h =>
    rw [h]
    exact ⟨fun heq => congrArg some (Except.ok.inj heq),
      fun heq => congrArg Except.ok (Option.some.inj heq)⟩
  · next h =>
    refine iff_of_false (fun heq => nomatch heq) (fun heq => ?_)
    rw [h] at heq
    cases heq

theorem decode_octets (m : Mnemonic) : decode m.octets = .ok m.text :=
  decode_eq_ok_iff.mpr (octetsOf_text m).symm

/-- **Octets that pass the check are decoded**, so decoding reports no fault of its own. -/
theorem exists_decode_eq_ok {octets : List Octet} (h : check octets = .ok ()) :
    ∃ text, decode octets = .ok text := by
  rw [check_eq] at h
  cases hm : ofOctets octets with
  | error e =>
      rw [hm] at h
      cases h
  | ok m =>
      rw [ofOctets_eq_ok_iff.mp hm]
      exact ⟨m.text, decode_octets m⟩

theorem textOfOctets_eq (octets : List Octet) :
    textOfOctets octets = (ofOctets octets).map text := by
  unfold textOfOctets
  rw [check_eq]
  cases h : ofOctets octets with
  | error e => rfl
  | ok m =>
      -- the check has let the octets of a name pass, so there is a text to decode
      rw [ofOctets_eq_ok_iff.mp h]
      exact decode_octets m

theorem textOfString_eq (text : String) :
    textOfString text = (ofString text).map Mnemonic.text := by
  unfold textOfString
  rw [check_eq]
  show (ofString text).map (fun _ => ()) >>= _ = _
  cases h : ofString text with
  | error e => rfl
  | ok m =>
      rw [ofString_eq_ok_iff.mp h]
      rfl

/-! ## Octets that are names, and the first octet at fault of others -/

theorem exists_ofOctets_eq_ok_iff {octets : List Octet} :
    (∃ m, ofOctets octets = .ok m) ↔ octets ≠ [] ∧ ∀ o ∈ octets, o.IsGraphic := by
  constructor
  · rintro ⟨m, hm⟩
    rw [ofOctets_eq_ok_iff.mp hm]
    exact ⟨m.ne_nil, m.graphic⟩
  · exact fun ⟨hne, hgraphic⟩ => ⟨⟨octets, hne, hgraphic⟩, ofOctets_eq_ok_iff.mpr rfl⟩

theorem ofOctets_eq_illegalOctet_iff {octets : List Octet} {o : Octet} {i : Nat} :
    ofOctets octets = .error (.illegalOctet o i) ↔ firstIllegal octets = some (o, i) := by
  rw [ofOctets_eq_error_iff]
  constructor
  · rintro (⟨-, h⟩ | ⟨o', i', h, heq⟩)
    · cases h
    · cases heq
      exact h
  · exact fun h => Or.inr ⟨o, i, h, rfl⟩

theorem ofOctets_eq_empty_iff {octets : List Octet} :
    ofOctets octets = .error .empty ↔ octets = [] := by
  rw [ofOctets_eq_error_iff]
  constructor
  · rintro (⟨h, -⟩ | ⟨o, i, -, heq⟩)
    · exact h
    · cases heq
  · exact fun h => Or.inl ⟨h, rfl⟩

theorem firstIllegal_eq_some_iff {octets : List Octet} {o : Octet} {i : Nat} :
    firstIllegal octets = some (o, i) ↔
      octets[i]? = some o ∧ IsLeast {j | ∃ p, octets[j]? = some p ∧ ¬ p.IsGraphic} i := by
  unfold firstIllegal
  -- what is found is a pair of `zipIdx`, so its place in that list is the position it holds
  rw [List.find?_eq_some_iff_getElem]
  simp only [List.getElem_zipIdx, List.length_zipIdx, Nat.zero_add]
  constructor
  · rintro ⟨hillegal, i', hi, heq, hbefore⟩
    obtain ⟨rfl, rfl⟩ := Prod.mk.inj heq
    refine ⟨List.getElem?_eq_getElem hi, ⟨_, List.getElem?_eq_getElem hi, by simpa using hillegal⟩,
      fun j hj => ?_⟩
    obtain ⟨p, hp, hillegal⟩ := hj
    by_contra hlt
    obtain ⟨hjlt, rfl⟩ := List.getElem?_eq_some_iff.mp hp
    have := hbefore j (Nat.lt_of_not_le hlt)
    simp only [decide_not, Bool.not_not, decide_eq_true_eq] at this
    exact hillegal this
  · rintro ⟨ho, ⟨p, hp, hillegal⟩, hleast⟩
    rw [ho] at hp
    cases hp
    obtain ⟨hi, rfl⟩ := List.getElem?_eq_some_iff.mp ho
    refine ⟨by simpa using hillegal, i, hi, rfl, fun j hj => ?_⟩
    by_contra hbad
    have hjlt := Nat.lt_trans hj hi
    have := hleast ⟨octets[j], List.getElem?_eq_getElem hjlt, by simpa using hbad⟩
    omega

/-- Behind printable octets only, an octet that is not printable is the first at fault. -/
theorem firstIllegal_append {octets : List Octet} (h : ∀ p ∈ octets, p.IsGraphic) {o : Octet}
    (ho : ¬ o.IsGraphic) (rest : List Octet) :
    firstIllegal (octets ++ o :: rest) = some (o, octets.length) := by
  have hat : (octets ++ o :: rest)[octets.length]? = some o := by
    rw [List.getElem?_append_right (Nat.le_refl _), Nat.sub_self]
    rfl
  refine firstIllegal_eq_some_iff.mpr ⟨hat, ⟨o, hat, ho⟩, fun j hj => ?_⟩
  obtain ⟨p, hp, hillegal⟩ := hj
  by_contra hlt
  rw [List.getElem?_append_left (Nat.lt_of_not_le hlt)] at hp
  exact hillegal (h p (List.mem_of_getElem? hp))

/-! ## The first character at fault -/

/-- The UTF-8 form of a character that is not printable ASCII starts with an octet that is not
printable. -/
theorem not_isGraphic_of_head? {c : Char} (h : ¬ (0x21 ≤ c.toNat ∧ c.toNat ≤ 0x7E)) {o : Octet}
    (ho : (String.utf8EncodeChar c).head? = some o) : ¬ o.IsGraphic := by
  rw [Octet.isGraphic_iff]
  -- below 128 the octet has the character's number, beyond it every octet is at least 128
  by_cases hascii : c.toNat < 128
  · obtain ⟨o', rfl⟩ := exists_toChar (Nat.lt_trans hascii (by decide))
    rw [utf8EncodeChar_toChar hascii] at ho
    cases ho
    exact h
  · have := le_of_mem_utf8EncodeChar (Nat.le_of_not_lt hascii) (List.mem_of_head? ho)
    omega

/-- The octets 0x80 to 0xBF stand in the middle of a character. -/
theorem not_isUTF8FirstByte : ∀ n < 0x40, ¬ (UInt8.ofNat (0x80 + n)).IsUTF8FirstByte := by
  decide

/-- A character's first octet is none from the middle of a character. -/
theorem not_continuation_of_head? {c : Char} {o : Octet}
    (ho : (String.utf8EncodeChar c).head? = some o) : ¬ (0x80 ≤ o ∧ o ≤ 0xBF) := by
  rintro ⟨hle, hge⟩
  rw [UInt8.le_iff_toNat_le] at hle hge
  have hle : 0x80 ≤ o.toNat := hle
  have hge : o.toNat ≤ 0xBF := hge
  -- an octet tells by its leading bits whether it can be the first one
  have hfirst : o.IsUTF8FirstByte := by
    obtain ⟨hlt, rfl⟩ := List.getElem?_eq_some_iff.mp (List.head?_eq_getElem?.symm.trans ho)
    exact UInt8.isUTF8FirstByte_getElem_utf8EncodeChar.mpr rfl
  refine not_isUTF8FirstByte (o.toNat - 0x80) (by omega) ?_
  rwa [Nat.add_sub_cancel' hle, UInt8.ofNat_toNat]

theorem graphic_octetsOf {text : String}
    (h : ∀ c ∈ text.toList, 0x21 ≤ c.toNat ∧ c.toNat ≤ 0x7E) :
    ∀ o ∈ octetsOf text, o.IsGraphic := by
  by_cases hnil : text.toList = []
  · unfold octetsOf
    rw [hnil]
    exact fun o ho => nomatch ho
  · obtain ⟨m, rfl⟩ := exists_text_eq_iff.mpr ⟨hnil, h⟩
    rw [octetsOf_text]
    exact m.graphic

/-- The character stands in the text, it is not printable ASCII, and all before it are. -/
structure FirstAtFault (text : String) (before : List Char) (c : Char) : Prop where
  split : ∃ after, text.toList = before ++ c :: after
  graphic : ∀ d ∈ before, 0x21 ≤ d.toNat ∧ d.toNat ≤ 0x7E
  fault : ¬ (0x21 ≤ c.toNat ∧ c.toNat ≤ 0x7E)

theorem FirstAtFault.firstIllegal_eq {text : String} {before : List Char} {c : Char}
    (h : FirstAtFault text before c) {o : Octet} (ho : (String.utf8EncodeChar c).head? = some o) :
    firstIllegal (octetsOf text) = some (o, before.length) := by
  obtain ⟨⟨after, hsplit⟩, hgraphic, hfault⟩ := h
  obtain ⟨octets, rfl, hoctets⟩ := exists_map_toChar_eq hgraphic
  have hsmall (p : Octet) (hp : p ∈ octets) : p.toNat < 128 :=
    Nat.lt_of_le_of_lt (Octet.isGraphic_iff.mp (hoctets p hp)).2 (by decide)
  obtain ⟨rest, hrest⟩ := List.head?_eq_some_iff.mp ho
  -- before the fault there are as many octets as characters
  have hwhole : octetsOf text = octets ++ o :: (rest ++ after.flatMap String.utf8EncodeChar) := by
    unfold octetsOf
    rw [hsplit, List.flatMap_append, flatMap_utf8EncodeChar_map_toChar hsmall, List.flatMap_cons,
      hrest, List.cons_append]
  rw [hwhole, List.length_map]
  exact firstIllegal_append hoctets (not_isGraphic_of_head? hfault ho) _

/-- Some character is the first at fault unless all are printable ASCII. -/
theorem exists_firstAtFault (text : String) :
    (∀ c ∈ text.toList, 0x21 ≤ c.toNat ∧ c.toNat ≤ 0x7E) ∨
      ∃ before c, FirstAtFault text before c := by
  cases h : text.toList.find? fun c => ¬ (0x21 ≤ c.toNat ∧ c.toNat ≤ 0x7E) with
  | none => exact Or.inl fun c hc => by simpa using List.find?_eq_none.mp h c hc
  | some c =>
      obtain ⟨hfault, before, after, hsplit, hgraphic⟩ := List.find?_eq_some_iff_append.mp h
      exact Or.inr ⟨before, c, ⟨after, hsplit⟩, fun d hd => by simpa using hgraphic d hd,
        of_decide_eq_true hfault⟩

/-- **A text is refused with the number of characters before the first one at fault and with the
first octet of that character.** -/
theorem ofString_eq_illegalOctet_iff {text : String} {o : Octet} {i : Nat} :
    ofString text = .error (.illegalOctet o i) ↔
      ∃ before c, FirstAtFault text before c ∧ i = before.length ∧
        (String.utf8EncodeChar c).head? = some o := by
  unfold ofString
  rw [ofOctets_eq_illegalOctet_iff]
  constructor
  · intro h
    rcases exists_firstAtFault text with hgraphic | ⟨before, c, hfault⟩
    · obtain ⟨hi, ⟨p, hp, hillegal⟩, -⟩ := firstIllegal_eq_some_iff.mp h
      exact absurd (graphic_octetsOf hgraphic p (List.mem_of_getElem? hp)) hillegal
    · obtain ⟨p, hp⟩ := Option.isSome_iff_exists.mp
        (List.isSome_head?.mpr (String.utf8EncodeChar_ne_nil (c := c)))
      rw [hfault.firstIllegal_eq hp] at h
      cases h
      exact ⟨before, c, hfault, rfl, hp⟩
  · rintro ⟨before, c, hfault, rfl, ho⟩
    exact hfault.firstIllegal_eq ho

/-- **Validation is exact.** Octets are a name exactly when there are some and all are printable,
and the name gives them back. No octets are refused as empty, all others with the first octet at
fault and its position; the decoder behind the check never fails. A text is treated as its octets
are, the position counts its characters up to the first one at fault, and the octet is the first
one of that character, none from the middle of a character. -/
theorem validation_exact :
    (∀ octets : List Octet,
      ((∃ m, ofOctets octets = .ok m) ↔ octets ≠ [] ∧ ∀ o ∈ octets, 0x21 ≤ o ∧ o ≤ 0x7E) ∧
      (∀ m, ofOctets octets = .ok m → m.octets = octets ∧ octetsOf m.text = octets) ∧
      (ofOctets octets = .error .empty ↔ octets = []) ∧
      (∀ o i, ofOctets octets = .error (.illegalOctet o i) ↔
        octets[i]? = some o ∧
          IsLeast {j | ∃ p, octets[j]? = some p ∧ ¬ (0x21 ≤ p ∧ p ≤ 0x7E)} i) ∧
      textOfOctets octets = (ofOctets octets).map text ∧
      (check octets = .ok () → ∃ text, decode octets = .ok text)) ∧
    ∀ text : String,
      ofString text = ofOctets (octetsOf text) ∧
      textOfString text = textOfOctets (octetsOf text) ∧
      ∀ o i, (ofString text = .error (.illegalOctet o i) ↔
          ∃ before c, FirstAtFault text before c ∧ i = before.length ∧
            (String.utf8EncodeChar c).head? = some o) ∧
        (ofString text = .error (.illegalOctet o i) → ¬ (0x80 ≤ o ∧ o ≤ 0xBF)) := by
  constructor
  · intro octets
    refine ⟨exists_ofOctets_eq_ok_iff, fun m hm => ?_, ofOctets_eq_empty_iff, fun o i => ?_,
      textOfOctets_eq octets, exists_decode_eq_ok⟩
    · rw [ofOctets_eq_ok_iff.mp hm]
      exact ⟨rfl, octetsOf_text m⟩
    · rw [ofOctets_eq_illegalOctet_iff]
      exact firstIllegal_eq_some_iff
  · intro text
    refine ⟨rfl, ?_, fun o i => ⟨ofString_eq_illegalOctet_iff, fun h => ?_⟩⟩
    · rw [textOfString_eq, textOfOctets_eq]
      rfl
    · obtain ⟨before, c, -, -, ho⟩ := ofString_eq_illegalOctet_iff.mp h
      exact not_continuation_of_head? ho

/-- Two characters stand before the first one at fault, which takes two octets. -/
example : ofString "NSé\n" = .error (.illegalOctet 0xC3 2) := by decide +kernel

end Mnemonic

end PerfectKeys
