import PerfectKeys.Proofs.Json.Grammar
import PerfectKeys.Proofs.ProgramText

/-!
# The escaped forms of a name

A name is written between double quotes in JSON and in diagnostics. Each has rules of its own:
they give letters to different characters, and where there is no letter the one has four digits
and the other as many as it takes, between braces. But they differ before the blank and behind the
tilde only. In a name both escape the quotes and the backslashes, and both do it by a backslash.

So the form in diagnostics has the JSON literal inside, and the name can be read back from either.
-/

namespace PerfectKeys

/-! ## Texts in diagnostics -/

namespace Diagnostic

/-- The letter that stands for a character behind a backslash, where there is one. -/
def letter? (c : Char) : Option Char :=
  if c = '\x00' then some '0'
  else if c = '\t' then some 't'
  else if c = '\r' then some 'r'
  else if c = '\n' then some 'n'
  else if c = '\\' then some '\\'
  else if c = '"' then some '"'
  else none

/-- The character can be shown. Of ASCII these are the characters from the blank to the tilde;
which others are is given. -/
def IsShown (others : Char → Bool) (c : Char) : Prop :=
  if c.toNat < 0x80 then 0x20 ≤ c.toNat ∧ c.toNat ≤ 0x7E else others c

instance (others : Char → Bool) : DecidablePred (IsShown others) := fun c =>
  inferInstanceAs (Decidable (if c.toNat < 0x80 then 0x20 ≤ c.toNat ∧ c.toNat ≤ 0x7E else others c))

/-- One character as it stands in a quoted text. -/
def escapeChar (others : Char → Bool) (c : Char) : List Char :=
  match letter? c with
  | some letter => ['\\', letter]
  | none =>
      if IsShown others c then [c]
      else '\\' :: 'u' :: '\x7b' :: (Nat.toDigits 16 c.toNat ++ ['\x7d'])

/-- The characters between double quotes. -/
def quote (others : Char → Bool) (chars : List Char) : List Char :=
  '"' :: chars.flatMap (escapeChar others) ++ ['"']

end Diagnostic

/-! ## From the blank to the tilde -/

section Graphic

variable {c : Char}

/-- What escapes the quote and the backslash, and not this character, guards it. -/
theorem Mnemonic.eq_guardChar {escape : Char → List Char} (hquote : escape '"' = ['\\', '"'])
    (hslash : escape '\\' = ['\\', '\\']) (hplain : c ≠ '"' → c ≠ '\\' → escape c = [c]) :
    escape c = Mnemonic.guardChar c := by
  unfold Mnemonic.guardChar
  split
  · next hguard =>
    rcases hguard with rfl | rfl
    · exact hquote
    · exact hslash
  · next hguard =>
    rw [not_or] at hguard
    exact hplain hguard.1 hguard.2

/-- JSON escapes the quote, the backslash, and what comes before the blank. -/
theorem Json.escapeChar_eq_guardChar (h : 0x20 ≤ c.toNat) :
    Json.escapeChar c = Mnemonic.guardChar c := by
  refine Mnemonic.eq_guardChar rfl rfl fun hquote hslash => ?_
  have hne (d : Char) (hd : d.toNat < 0x20) : c ≠ d := (Json.ne_of_control hd h).symm
  have hshort : Json.shortEscape? c = none := by
    simp [Json.shortEscape?, hquote, hslash, hne]
  unfold Json.escapeChar
  rw [hshort]
  exact if_neg (Nat.not_lt.mpr h)

/-- In diagnostics, too, it is the quote and the backslash up to the tilde. -/
theorem Diagnostic.escapeChar_eq_guardChar (others : Char → Bool) (h : 0x20 ≤ c.toNat)
    (h' : c.toNat ≤ 0x7E) : Diagnostic.escapeChar others c = Mnemonic.guardChar c := by
  refine Mnemonic.eq_guardChar rfl rfl fun hquote hslash => ?_
  have hne (d : Char) (hd : d.toNat < 0x20) : c ≠ d := (Json.ne_of_control hd h).symm
  have hletter : Diagnostic.letter? c = none := by
    simp [Diagnostic.letter?, hquote, hslash, hne]
  have hshown : Diagnostic.IsShown others c := by
    unfold Diagnostic.IsShown
    rw [if_pos (Nat.lt_of_le_of_lt h' (by decide))]
    exact ⟨h, h'⟩
  unfold Diagnostic.escapeChar
  rw [hletter]
  exact if_pos hshown

end Graphic

namespace Mnemonic

/-! ## Names -/

/-- The name as JSON. -/
theorem toList_compact_text (m : Mnemonic) :
    (Json.str m.text).compact.toList = Json.quote m.chars := by
  unfold Json.compact text
  rw [String.toList_ofList, Json.chars, String.toList_ofList]

theorem toList_quoted (m : Mnemonic) :
    m.quoted.toList = '"' :: m.chars.flatMap guardChar ++ ['"'] :=
  String.toList_ofList

/-- **JSON and diagnostics quote a name alike.** -/
theorem quoted_eq_compact (m : Mnemonic) : m.quoted = (Json.str m.text).compact := by
  have hchars : m.chars.flatMap Json.escapeChar = m.chars.flatMap guardChar :=
    List.flatMap_congr fun c hc =>
      Json.escapeChar_eq_guardChar (Nat.le_of_succ_le (graphic_of_mem_chars hc).1)
  refine String.toList_inj.mp ?_
  rw [toList_compact_text, Json.quote, hchars, toList_quoted]

theorem toList_quoted_eq_quote (m : Mnemonic) (others : Char → Bool) :
    m.quoted.toList = Diagnostic.quote others m.chars := by
  have hchars : m.chars.flatMap (Diagnostic.escapeChar others) = m.chars.flatMap guardChar := by
    refine List.flatMap_congr fun c hc => ?_
    obtain ⟨h, h'⟩ := graphic_of_mem_chars hc
    exact Diagnostic.escapeChar_eq_guardChar others (Nat.le_of_succ_le h) h'
  rw [toList_quoted, Diagnostic.quote, hchars]

theorem inspect_eq (m : Mnemonic) : m.inspect = "Mnemonic(" ++ m.quoted ++ ")" := rfl

/-- The JSON form is a literal of its text, and of no other. -/
theorem lexeme_compact_iff {m : Mnemonic} {text : String} :
    Json.Lexeme (.str text) (Json.str m.text).compact.toList ↔ text = m.text := by
  rw [toList_compact_text, Json.lexeme_quote_iff]
  exact Iff.rfl

/-- The form in diagnostics is read back. -/
theorem firstLiteral?_inspect (m : Mnemonic) :
    ProgramText.firstLiteral? m.inspect.toList = some (m.chars, [')']) := by
  have hquote : '"' ∉ "Mnemonic(".toList := by decide
  rw [inspect_eq, String.toList_append, String.toList_append, List.append_assoc]
  exact ProgramText.firstLiteral?_quoted hquote m _

/-- **The escaped forms agree and are read back.** The JSON form is a literal that stands for the
name's text and for nothing else, and it is what the rules for diagnostics make of the name,
whatever they show beyond ASCII. The form in diagnostics is this literal between the parentheses.
Both readers find the name in their form, so different names have different forms. -/
theorem escaped_forms_agree (m : Mnemonic) :
    let literal := (Json.str m.text).compact
    ((∀ text, Json.Lexeme (.str text) literal.toList ↔ text = m.text) ∧
      Json.token? literal.toList = some (.str m.text, [])) ∧
    (m.inspect = "Mnemonic(" ++ literal ++ ")" ∧
      (∀ others, literal.toList = Diagnostic.quote others m.chars) ∧
      ProgramText.firstLiteral? m.inspect.toList = some (m.chars, [')'])) ∧
    ∀ m' : Mnemonic, ((Json.str m'.text).compact = literal ↔ m' = m) ∧
      (m'.inspect = m.inspect ↔ m' = m) := by
  intro literal
  have hquoted : m.quoted = literal := m.quoted_eq_compact
  have hread : Json.token? literal.toList = some (.str m.text, []) := by
    rw [toList_compact_text, ← List.append_nil (Json.quote m.chars)]
    exact Json.token?_quote m.chars []
  refine ⟨⟨fun text => lexeme_compact_iff, hread⟩, ⟨?_, fun others => ?_, m.firstLiteral?_inspect⟩,
    fun m' => ⟨⟨fun h => ?_, fun h => h ▸ rfl⟩, ⟨fun h => ?_, fun h => h ▸ rfl⟩⟩⟩
  · rw [inspect_eq, hquoted]
  · rw [← hquoted, toList_quoted_eq_quote]
  · have hliteral := (lexeme_compact_iff (m := m')).mpr rfl
    rw [h] at hliteral
    exact text_inj.mp (lexeme_compact_iff.mp hliteral)
  · have hname := m'.firstLiteral?_inspect
    rw [h, m.firstLiteral?_inspect] at hname
    exact (chars_inj (Prod.mk.inj (Option.some.inj hname)).1).symm

end Mnemonic

end PerfectKeys
