import PerfectKeys.Magic.Search
import PerfectKeys.Proofs.Spelling

/-!
# Names and the texts that give them

Before anything else, texts become names. `readNames` succeeds exactly on the texts that
names are given by, and otherwise reports the error of the first text that spells none.
Every list of texts is of one kind or the other.
-/

namespace PerfectKeys

/-- How a name with its number is given: by its text. -/
def CodedName.given (n : CodedName) : String × UInt16 := (n.name.text, n.code)

theorem given_injective : Function.Injective CodedName.given := by
  intro a b h
  obtain ⟨htext, hcode⟩ := Prod.mk.inj h
  have hname : a.name = b.name := Mnemonic.text_inj.mp htext
  cases a
  cases b
  cases hname
  cases hcode
  rfl

theorem readNames_cons (text : String) (code : UInt16) (rest : List (String × UInt16)) :
    readNames ((text, code) :: rest) =
      match Mnemonic.ofString text with
      | .error e => .error e
      | .ok m => (readNames rest).map (⟨m, code⟩ :: ·) := by
  rw [readNames, List.mapM_cons]
  change (do
    let n ← (Mnemonic.ofString text).map fun m => CodedName.mk m code
    let names ← readNames rest
    pure (n :: names)) = _
  cases Mnemonic.ofString text with
  | error e => rfl
  | ok m =>
      cases readNames rest with
      | error e => rfl
      | ok names => rfl

/-- Names are read back from the texts that give them. -/
theorem readNames_map_given (names : List CodedName) :
    readNames (names.map CodedName.given) = .ok names := by
  induction names with
  | nil => rfl
  | cons n names ih =>
      rw [List.map_cons, CodedName.given, readNames_cons, Mnemonic.ofString_eq_ok_iff.mpr rfl, ih]
      rfl

/-- The error is that of the first text that spells no name. -/
theorem readNames_append_cons {before : List CodedName} {text : String} {code : UInt16}
    {after : List (String × UInt16)} {e : MnemonicError} (h : Mnemonic.ofString text = .error e) :
    readNames (before.map CodedName.given ++ (text, code) :: after) = .error e := by
  induction before with
  | nil => rw [List.map_nil, List.nil_append, readNames_cons, h]
  | cons n before ih =>
      rw [List.map_cons, List.cons_append, CodedName.given, readNames_cons,
        Mnemonic.ofString_eq_ok_iff.mpr rfl]
      dsimp only
      rw [ih]
      rfl

/-- A text that gives a name is not refused. -/
theorem ofString_ne_error_of_mem {names : List CodedName} {text : String} {code : UInt16}
    (h : (text, code) ∈ names.map CodedName.given) (e : MnemonicError) :
    Mnemonic.ofString text ≠ .error e := by
  obtain ⟨n, -, hn⟩ := List.mem_map.mp h
  have htext : n.name.text = text := (Prod.mk.inj hn).1
  rw [Mnemonic.ofString_eq_ok_iff.mpr htext.symm]
  simp

/-- Texts give names from the first to the last, or up to a first one that spells none. -/
theorem given_or_error (texts : List (String × UInt16)) :
    (∃ names : List CodedName, texts = names.map CodedName.given) ∨
      ∃ (before : List CodedName) (text : String) (code : UInt16)
        (after : List (String × UInt16)) (e : MnemonicError),
        texts = before.map CodedName.given ++ (text, code) :: after ∧
          Mnemonic.ofString text = .error e := by
  induction texts with
  | nil => exact Or.inl ⟨[], rfl⟩
  | cons p rest ih =>
      obtain ⟨text, code⟩ := p
      cases h : Mnemonic.ofString text with
      | error e => exact Or.inr ⟨[], text, code, rest, e, rfl, h⟩
      | ok m =>
          have hp : (text, code) = CodedName.given ⟨m, code⟩ := by
            rw [CodedName.given, ← Mnemonic.ofString_eq_ok_iff.mp h]
          rcases ih with ⟨names, rfl⟩ | ⟨before, text', code', after, e, rfl, he⟩
          · exact Or.inl ⟨⟨m, code⟩ :: names, by rw [List.map_cons, hp]⟩
          · exact Or.inr ⟨⟨m, code⟩ :: before, text', code', after, e,
              by rw [List.map_cons, List.cons_append, hp], he⟩

end PerfectKeys
