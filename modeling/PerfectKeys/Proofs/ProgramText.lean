import PerfectKeys.Json.Token
import PerfectKeys.Proofs.Spelling

/-!
# String literals in program text

A string literal stands between double quotes. A backslash in it starts an escape, which stands
for one character, or for none where it joins two lines; the literal ends at the first double
quote that is not part of an escape. Carriage returns do not occur in it.

An escape is longer than what it stands for. So a literal that spells all the characters between
its quotes has none: it is read as them exactly when they have neither quotes nor backslashes. The
others can be spelled, too, with a backslash before each of these.
-/

namespace PerfectKeys.ProgramText

/-! ## Reading -/

/-- The character that a letter stands for behind a backslash. -/
def letterEscape? (letter : Char) : Option Char :=
  match letter with
  | 'n' => some '\n'
  | 'r' => some '\r'
  | 't' => some '\t'
  | '0' => some '\x00'
  | '\\' => some '\\'
  | '\x27' => some '\x27'
  | '"' => some '"'
  | _ => none

/-- The character below 128 that two hexadecimal digits spell. -/
def byteEscape? (high low : Char) : Option Char := do
  let high ← Json.hexDigit? high
  let low ← Json.hexDigit? low
  if high < 8 then some (Char.ofNat (high * 16 + low)) else none

/-- The character that one to six hexadecimal digits spell. Underscores may stand behind the
first of them. -/
def codePoint? (digits : List Char) : Option Char := do
  let values ← (digits.filter (· ≠ '_')).mapM Json.hexDigit?
  let number := values.foldl (fun number value => number * 16 + value) 0
  if digits.head? ≠ some '_' ∧ 1 ≤ values.length ∧ values.length ≤ 6 ∧ number.isValidChar then
    some (Char.ofNat number)
  else none

/-- The character that an escape stands for, given the text behind its backslash, and what follows
the escape. A line break stands for nothing, and neither do the blanks behind it. -/
def escape? (text : List Char) : Option (Option Char × List Char) :=
  match text with
  | [] => none
  | '\n' :: rest => some (none, rest.dropWhile fun c => Json.IsBlank c)
  | 'x' :: high :: low :: rest => (byteEscape? high low).map fun c => (some c, rest)
  | 'u' :: '\x7b' :: rest =>
      match rest.dropWhile (· ≠ '\x7d') with
      | [] => none
      | _ :: after => (codePoint? (rest.takeWhile (· ≠ '\x7d'))).map fun c => (some c, after)
  | letter :: rest => (letterEscape? letter).map fun c => (some c, rest)

/-- An escape has at least one character behind its backslash. -/
theorem length_lt_of_escape? {text rest : List Char} {c : Option Char}
    (h : escape? text = some (c, rest)) : rest.length < text.length := by
  unfold escape? at h
  split at h
  · cases h
  · next tail =>
    cases h
    have := (List.dropWhile_suffix (fun c => decide (Json.IsBlank c)) (l := tail)).length_le
    simp only [List.length_cons]
    omega
  · obtain ⟨_, _, he⟩ := Option.map_eq_some_iff.mp h
    cases he
    simp only [List.length_cons]
    omega
  · next tail =>
    have hsuffix := (List.dropWhile_suffix (fun c => decide (c ≠ '\x7d')) (l := tail)).length_le
    split at h
    · cases h
    · next hdrop =>
      obtain ⟨_, _, he⟩ := Option.map_eq_some_iff.mp h
      cases he
      rw [hdrop] at hsuffix
      simp only [List.length_cons] at hsuffix ⊢
      omega
  · obtain ⟨_, _, he⟩ := Option.map_eq_some_iff.mp h
    cases he
    exact Nat.lt_succ_self _

/-- The characters that a literal spells, given the text behind its opening quote, and what follows
its closing quote. -/
def literal? (text : List Char) : Option (List Char × List Char) :=
  match text with
  | [] => none
  | '"' :: rest => some ([], rest)
  | '\\' :: rest =>
      match h : escape? rest with
      | none => none
      | some (c, tail) =>
          have := length_lt_of_escape? h
          (literal? tail).map fun q => (c.toList ++ q.1, q.2)
  | c :: rest => if c = '\r' then none else (literal? rest).map fun q => (c :: q.1, q.2)
termination_by text.length
decreasing_by
  · exact Nat.lt_succ_of_lt this
  · exact Nat.lt_succ_self _

/-- What the first literal of a text spells, and what follows it. -/
def firstLiteral? (text : List Char) : Option (List Char × List Char) :=
  literal? ((text.dropWhile (· ≠ '"')).drop 1)

/-- The first literal starts at the first double quote. -/
theorem firstLiteral?_append {before : List Char} (h : '"' ∉ before) (rest : List Char) :
    firstLiteral? (before ++ '"' :: rest) = literal? rest := by
  have hbefore : ∀ c ∈ before, decide (c ≠ '"') = true := by
    intro c hc
    rw [decide_eq_true_eq]
    exact ne_of_mem_of_not_mem hc h
  unfold firstLiteral?
  rw [List.dropWhile_append_of_pos hbefore, List.dropWhile_cons_of_neg (by decide)]
  rfl

theorem literal?_escape {text rest : List Char} {c : Option Char}
    (h : escape? text = some (c, rest)) :
    literal? ('\\' :: text) = (literal? rest).map fun q => (c.toList ++ q.1, q.2) := by
  rw [literal?.eq_3]
  split
  · next hnone =>
    rw [h] at hnone
    cases hnone
  · next hsome =>
    rw [h] at hsome
    cases hsome
    rfl

/-! ## Literals without escapes -/

/-- A character that stands for itself in a literal. -/
def IsPlain (c : Char) : Prop := c ≠ '"' ∧ c ≠ '\\' ∧ c ≠ '\r'

theorem literal?_plain {c : Char} (h : IsPlain c) (rest : List Char) :
    literal? (c :: rest) = (literal? rest).map fun q => (c :: q.1, q.2) := by
  obtain ⟨hquote, hslash, hreturn⟩ := h
  rw [literal?.eq_4 c rest hquote hslash, if_neg hreturn]

/-- Besides its closing quote, a literal without escapes takes as many characters as it spells. One
with escapes takes more. -/
theorem plain_or_lt_of_literal? {text chars rest : List Char}
    (h : literal? text = some (chars, rest)) :
    ((∀ c ∈ chars, IsPlain c) ∧ chars.length + rest.length + 1 = text.length) ∨
      chars.length + rest.length + 1 < text.length := by
  induction text using literal?.induct generalizing chars rest with
  | case1 =>
      rw [literal?.eq_1] at h
      cases h
  | case2 tail =>
      rw [literal?.eq_2] at h
      cases h
      exact Or.inl ⟨by simp, by simp⟩
  | case3 tail hnone =>
      rw [literal?.eq_3] at h
      split at h
      · cases h
      · next hsome =>
        rw [hnone] at hsome
        cases hsome
  | case4 tail c after hescape _ ih =>
      rw [literal?_escape hescape] at h
      obtain ⟨q, hq, he⟩ := Option.map_eq_some_iff.mp h
      cases he
      have hafter : q.1.length + q.2.length + 1 ≤ after.length := by
        rcases ih hq with ⟨-, heq⟩ | hlt
        · exact Nat.le_of_eq heq
        · exact Nat.le_of_lt hlt
      -- the backslash and what is behind it are two characters, and they spell at most one
      have hlt := length_lt_of_escape? hescape
      have hc : c.toList.length ≤ 1 := by
        cases c with
        | none => exact Nat.zero_le 1
        | some c => exact Nat.le_refl 1
      refine Or.inr ?_
      rw [List.length_append, List.length_cons]
      omega
  | case5 tail hquote hslash =>
      rw [literal?.eq_4 _ _ hquote hslash, if_pos rfl] at h
      cases h
  | case6 c tail hquote hslash hreturn ih =>
      have hc : IsPlain c := ⟨hquote, hslash, hreturn⟩
      rw [literal?_plain hc] at h
      obtain ⟨q, hq, he⟩ := Option.map_eq_some_iff.mp h
      cases he
      rw [List.length_cons, List.length_cons]
      rcases ih hq with ⟨hplain, heq⟩ | hlt
      · exact Or.inl ⟨List.forall_mem_cons.mpr ⟨hc, hplain⟩, by omega⟩
      · exact Or.inr (by omega)

/-- **A literal spells the characters between its quotes exactly when they are plain.** -/
theorem literal?_eq_self_iff {chars rest : List Char} :
    literal? (chars ++ '"' :: rest) = some (chars, rest) ↔ ∀ c ∈ chars, IsPlain c := by
  refine ⟨fun h => ?_, fun h => ?_⟩
  · rcases plain_or_lt_of_literal? h with ⟨hplain, -⟩ | hlt
    · exact hplain
    · rw [List.length_append, List.length_cons] at hlt
      omega
  · induction chars with
    | nil => rw [List.nil_append, literal?.eq_2]
    | cons c chars ih =>
        obtain ⟨hc, hchars⟩ := List.forall_mem_cons.mp h
        rw [List.cons_append, literal?_plain hc, ih hchars]
        rfl

/-! ## Literals with guarded characters -/

theorem literal?_guardChar {c : Char} (h : c ≠ '\r') (rest : List Char) :
    literal? (Mnemonic.guardChar c ++ rest) = (literal? rest).map fun q => (c :: q.1, q.2) := by
  unfold Mnemonic.guardChar
  split
  · next hguard =>
    have hescape : escape? (c :: rest) = some (some c, rest) := by
      rcases hguard with rfl | rfl
      · rfl
      · rfl
    exact literal?_escape hescape
  · next hguard =>
    rw [not_or] at hguard
    exact literal?_plain ⟨hguard.1, hguard.2, h⟩ rest

/-- **With its quotes and backslashes guarded, every text without carriage returns is spelled.** -/
theorem literal?_guarded {chars : List Char} (h : ∀ c ∈ chars, c ≠ '\r') (rest : List Char) :
    literal? (chars.flatMap Mnemonic.guardChar ++ '"' :: rest) = some (chars, rest) := by
  induction chars with
  | nil => rw [List.flatMap_nil, List.nil_append, literal?.eq_2]
  | cons c chars ih =>
      obtain ⟨hc, hchars⟩ := List.forall_mem_cons.mp h
      rw [List.flatMap_cons, List.append_assoc, literal?_guardChar hc, ih hchars]
      rfl

/-- The form that a name has in diagnostics spells it. -/
theorem firstLiteral?_quoted {before : List Char} (h : '"' ∉ before) (m : Mnemonic)
    (rest : List Char) :
    firstLiteral? (before ++ (m.quoted.toList ++ rest)) = some (m.chars, rest) := by
  have hreturn : ∀ c ∈ m.chars, c ≠ '\r' := fun c hc => Mnemonic.ne_of_mem_chars hc (by decide)
  unfold Mnemonic.quoted
  rw [String.toList_ofList, List.cons_append, List.cons_append, List.append_assoc,
    firstLiteral?_append h]
  exact literal?_guarded hreturn rest

end PerfectKeys.ProgramText
