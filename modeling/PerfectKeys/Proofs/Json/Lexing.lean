import Mathlib.Data.List.Forall2
import PerfectKeys.Json.Token
import PerfectKeys.Proofs.Json.Quoting

/-!
# The text of a value consists of its tokens

A layout only decides where blanks go, and blanks between tokens are skipped. So `lex` takes
the text of a value apart into the tokens that spell the value, in every layout.

The induction is on the value, with any text behind the value's own. That text must not
start with a digit, or a number at the end of the value would go on in it; brackets, commas
and colons, all that ever stands behind a value, do not.
-/

namespace PerfectKeys.Json

/-! ## One token at the start of a text -/

/-- The text does not go on with a digit. -/
def NoDigit (text : List Char) : Prop := ∀ c ∈ text.head?, c.isDigit = false

theorem noDigit_append {text rest : List Char} (ht : NoDigit text) (hr : NoDigit rest) :
    NoDigit (text ++ rest) := by
  cases text with
  | nil => exact hr
  | cons c text => exact ht

theorem lex_of_isBlank {c : Char} (h : IsBlank c) (rest : List Char) :
    lex (c :: rest) = lex rest := by
  rw [lex.eq_2, if_pos h]

theorem lex_of_token? {c : Char} {rest tail : List Char} {t : Token} (hc : ¬ IsBlank c)
    (ht : token? (c :: rest) = some (t, tail)) : lex (c :: rest) = (lex tail).map (t :: ·) := by
  rw [lex.eq_2, if_neg hc]
  split
  · next h =>
    rw [ht] at h
    cases h
  · next h =>
    rw [ht] at h
    cases h
    rfl

theorem token?_sign {c : Char} {t : Token} (h : sign? c = some t) (rest : List Char) :
    ¬ IsBlank c ∧ c.isDigit = false ∧ token? (c :: rest) = some (t, rest) := by
  unfold sign? at h
  split at h
  all_goals
    cases h
    try exact ⟨by decide, by decide, rfl⟩

/-- Only zero itself starts with the digit zero. -/
theorem head?_toDigits_ne_zero {n : Nat} (hpos : 1 ≤ n) :
    (Nat.toDigits 10 n).head? ≠ some '0' := by
  induction n using Nat.strongRecOn with
  | ind n ih =>
    rcases Nat.lt_or_ge n 10 with hlt | hge
    · have hdigit : ∀ d, d < 10 → 1 ≤ d → [Nat.digitChar d].head? ≠ some '0' := by decide
      rw [Nat.toDigits_of_lt_base hlt]
      exact hdigit n hlt hpos
    · rw [Nat.toDigits_of_base_le (by decide) hge,
        List.head?_append_of_ne_nil _ Nat.toDigits_ne_nil]
      exact ih (n / 10) (by omega) (by omega)

/-- A number is written as one digit or more. -/
theorem exists_toDigits_eq_cons (n : Nat) :
    ∃ c more, Nat.toDigits 10 n = c :: more ∧ ∀ d ∈ c :: more, d.isDigit = true := by
  cases hn : Nat.toDigits 10 n with
  | nil => exact absurd hn Nat.toDigits_ne_nil
  | cons c more =>
      refine ⟨c, more, rfl, fun d hd => ?_⟩
      rw [← hn] at hd
      exact Nat.isDigit_of_mem_toDigits (by decide) (by decide) hd

theorem not_isBlank_of_isDigit {c : Char} (h : c.isDigit = true) : ¬ IsBlank c := by
  rintro (rfl | rfl | rfl | rfl)
  all_goals cases h

/-- Digits end where no digit stands. -/
theorem takeWhile_dropWhile_isDigit {digits rest : List Char}
    (hdigits : ∀ d ∈ digits, d.isDigit = true) (hrest : NoDigit rest) :
    (digits ++ rest).takeWhile Char.isDigit = digits ∧
      (digits ++ rest).dropWhile Char.isDigit = rest := by
  rw [List.takeWhile_append_of_pos hdigits, List.dropWhile_append_of_pos hdigits]
  cases rest with
  | nil => exact ⟨List.append_nil digits, rfl⟩
  | cons d rest =>
      rw [List.takeWhile_cons, List.dropWhile_cons, hrest d rfl]
      exact ⟨List.append_nil digits, rfl⟩

/-- Digits are read as a number up to where they end, unless a zero stands before others. -/
theorem token?_number {digits rest : List Char} (hne : digits ≠ [])
    (hdigit : ∀ d ∈ digits, d.isDigit = true) (hlead : digits.head? = some '0' → digits = ['0'])
    (hrest : NoDigit rest) :
    token? (digits ++ rest) = some (.num (Nat.ofDigitChars 10 digits 0), rest) := by
  obtain ⟨c, more, rfl⟩ := List.exists_cons_of_ne_nil hne
  have hc : c.isDigit = true := hdigit c List.mem_cons_self
  have hmore : ∀ d ∈ more, d.isDigit = true := fun d hd => hdigit d (List.mem_cons_of_mem c hd)
  obtain ⟨htake, hdrop⟩ := takeWhile_dropWhile_isDigit hmore hrest
  have hzero : ¬ (c = '0' ∧ more ≠ []) := by
    rintro ⟨rfl, hmore⟩
    exact hmore (List.cons.inj (hlead rfl)).2
  have hne (c' : Char) (h' : c'.isDigit = false) : c ≠ c' := by
    rintro rfl
    rw [hc] at h'
    cases h'
  rw [List.cons_append, token?.eq_5 c _ (hne '"' rfl) (fun _ h => absurd h (hne 't' rfl))
    (fun _ h => absurd h (hne 'f' rfl)), if_pos hc]
  dsimp only
  rw [htake, hdrop, if_neg hzero]

theorem token?_digits (n : Nat) {rest : List Char} (hrest : NoDigit rest) :
    token? (Nat.toDigits 10 n ++ rest) = some (.num n, rest) := by
  obtain ⟨c, more, hn, hdigit⟩ := exists_toDigits_eq_cons n
  have hne : Nat.toDigits 10 n ≠ [] := Nat.toDigits_ne_nil
  have hlead : (Nat.toDigits 10 n).head? = some '0' → Nat.toDigits 10 n = ['0'] := by
    intro hhead
    rcases Nat.eq_zero_or_pos n with rfl | hpos
    · rfl
    · exact absurd hhead (head?_toDigits_ne_zero hpos)
  rw [← hn] at hdigit
  rw [token?_number hne hdigit hlead hrest, Nat.ofDigitChars_ten_toDigits]

theorem token?_quote (chars rest : List Char) :
    token? (quote chars ++ rest) = some (.str (String.ofList chars), rest) := by
  show token? ('"' :: ((chars.flatMap escapeChar ++ ['"']) ++ rest)) = _
  rw [token?.eq_2, List.append_assoc]
  show (unquote (chars.flatMap escapeChar ++ '"' :: rest)).map _ = _
  rw [unquote_quote]
  rfl

/-! ## Texts and the tokens they consist of -/

/-- In front of any text that does not start with a digit, the text is read as these tokens. -/
def Lexes (text : List Char) (tokens : List Token) : Prop :=
  ∀ rest, NoDigit rest → lex (text ++ rest) = (lex rest).map (tokens ++ ·)

theorem lexes_nil : Lexes [] [] := by
  intro rest _
  rw [List.nil_append]
  cases lex rest with
  | none => rfl
  | some tokens => rfl

section Lexes

variable {text more : List Char} {tokens others : List Token}

theorem Lexes.append (h : Lexes text tokens) (hmore : Lexes more others) (hn : NoDigit more) :
    Lexes (text ++ more) (tokens ++ others) := by
  intro rest hrest
  rw [List.append_assoc, h _ (noDigit_append hn hrest), hmore rest hrest, Option.map_map]
  refine congrArg (fun f => (lex rest).map f) (funext fun ts => ?_)
  exact (List.append_assoc tokens others ts).symm

theorem Lexes.of_token? {c : Char} {t : Token} (hc : ¬ IsBlank c)
    (ht : ∀ rest, token? (c :: (text ++ rest)) = some (t, rest)) (h : Lexes more others) :
    Lexes (c :: (text ++ more)) (t :: others) := by
  intro rest hrest
  rw [List.cons_append, List.append_assoc, lex_of_token? hc (ht (more ++ rest)), h rest hrest,
    Option.map_map]
  rfl

theorem Lexes.sign {c : Char} {t : Token} (hc : sign? c = some t) (h : Lexes more others) :
    Lexes (c :: more) (t :: others) := by
  have hblank := (token?_sign hc []).1
  have htoken (rest : List Char) : token? (c :: ([] ++ rest)) = some (t, rest) :=
    (token?_sign hc rest).2.2
  exact h.of_token? hblank htoken

theorem Lexes.quote (chars : List Char) (h : Lexes more others) :
    Lexes (quote chars ++ more) (.str (String.ofList chars) :: others) := by
  show Lexes ('"' :: ((chars.flatMap escapeChar ++ ['"']) ++ more)) _
  exact Lexes.of_token? (by decide) (token?_quote chars) h

theorem Lexes.blanks {blanks : List Char} (hb : ∀ c ∈ blanks, IsBlank c)
    (h : Lexes more others) : Lexes (blanks ++ more) others := by
  intro rest hrest
  rw [List.append_assoc]
  induction blanks with
  | nil => exact h rest hrest
  | cons c blanks ih =>
      rw [List.cons_append, lex_of_isBlank (hb c List.mem_cons_self)]
      exact ih fun d hd => hb d (List.mem_cons_of_mem c hd)

theorem noDigit_sign {c : Char} {t : Token} (hc : sign? c = some t) : NoDigit (c :: more) := by
  intro d hd
  cases hd
  exact (token?_sign hc []).2.1

theorem noDigit_blanks {blanks : List Char} (hb : ∀ c ∈ blanks, IsBlank c) : NoDigit blanks := by
  intro c hc
  have hblank := hb c (List.mem_of_mem_head? hc)
  rcases hblank with rfl | rfl | rfl | rfl
  all_goals rfl

end Lexes

/-! ## Values -/

/-- The layout puts nothing but blanks around the tokens. -/
structure Layout.OnlyBlanks (layout : Layout) : Prop where
  newline : ∀ depth, ∀ c ∈ layout.newline depth, IsBlank c
  colon : ∃ blanks, layout.colon = ':' :: blanks ∧ ∀ c ∈ blanks, IsBlank c

theorem onlyBlanks_compact : Layout.compact.OnlyBlanks where
  newline := by
    intro depth c hc
    cases hc
  colon := ⟨[], rfl, by simp⟩

theorem onlyBlanks_indented : Layout.indented.OnlyBlanks where
  newline := by
    intro depth c hc
    rcases List.mem_cons.mp hc with rfl | hc
    · exact Or.inr (Or.inl rfl)
    · exact Or.inl (List.eq_of_mem_replicate hc)
  colon := ⟨[' '], rfl, List.forall_mem_singleton.mpr (Or.inl rfl)⟩

section Values

variable {layout : Layout}

theorem lexes_intercalate {blanks : List Char} (hb : ∀ c ∈ blanks, IsBlank c)
    {texts : List (List Char)} {groups : List (List Token)} (h : List.Forall₂ Lexes texts groups) :
    Lexes (List.intercalate (',' :: blanks) texts) (commaSeparated groups) := by
  induction h with
  | nil => exact lexes_nil
  | @cons text group texts groups htext hrest ih =>
      cases hrest with
      | nil =>
          show Lexes (text ++ []) group
          rw [List.append_nil]
          exact htext
      | cons h1 h2 =>
          -- a comma ends the item, whatever it ends with
          rw [List.intercalate_cons_cons, List.append_assoc]
          exact htext.append ((ih.blanks hb).sign rfl) (noDigit_sign rfl)

theorem lexes_enclose (hl : layout.OnlyBlanks) (depth : Nat) {opening closing : Char}
    {first last : Token} (ho : sign? opening = some first) (hc : sign? closing = some last)
    {texts : List (List Char)} {groups : List (List Token)} (h : List.Forall₂ Lexes texts groups) :
    Lexes (enclose layout depth opening closing texts)
      (first :: commaSeparated groups ++ [last]) := by
  have hclose : Lexes [closing] [last] := lexes_nil.sign hc
  cases texts with
  | nil =>
      cases h
      exact hclose.sign ho
  | cons text texts =>
      have hitems := lexes_intercalate (hl.newline (depth + 1)) h
      have hend : Lexes (layout.newline depth ++ [closing]) [last] :=
        hclose.blanks (hl.newline depth)
      have hn : NoDigit (layout.newline depth ++ [closing]) :=
        noDigit_append (noDigit_blanks (hl.newline depth)) (noDigit_sign hc)
      have hall := ((hitems.append hend hn).blanks (hl.newline (depth + 1))).sign ho
      unfold enclose
      simpa only [List.cons_append, List.append_assoc] using hall

mutual

/-- **The text of a value consists of the tokens that spell it.** -/
theorem lexes_chars (hl : layout.OnlyBlanks) (depth : Nat) :
    ∀ value : Json, Lexes (value.chars layout depth) value.tokens
  | bool true => by
      rw [chars, tokens]
      show Lexes ('t' :: (['r', 'u', 'e'] ++ [])) (.bool true :: [])
      exact lexes_nil.of_token? (by decide) fun _ => rfl
  | bool false => by
      rw [chars, tokens]
      show Lexes ('f' :: (['a', 'l', 's', 'e'] ++ [])) (.bool false :: [])
      exact lexes_nil.of_token? (by decide) fun _ => rfl
  | num n => by
      rw [chars, tokens]
      intro rest hrest
      have htoken := token?_digits n hrest
      obtain ⟨c, more, hn, hdigit⟩ := exists_toDigits_eq_cons n
      rw [hn] at htoken ⊢
      exact lex_of_token? (not_isBlank_of_isDigit (hdigit c List.mem_cons_self)) htoken
  | str s => by
      rw [chars, tokens]
      have h := lexes_nil.quote s.toList
      rwa [List.append_nil, String.ofList_toList] at h
  | arr items => by
      rw [chars, tokens]
      exact lexes_enclose hl depth rfl rfl (lexes_itemChars hl (depth + 1) items)
  | obj members => by
      rw [chars, tokens]
      exact lexes_enclose hl depth rfl rfl (lexes_memberChars hl (depth + 1) members)

theorem lexes_itemChars (hl : layout.OnlyBlanks) (depth : Nat) :
    ∀ items : List Json, List.Forall₂ Lexes (itemChars layout depth items) (itemTokens items)
  | [] => .nil
  | item :: rest => .cons (lexes_chars hl depth item) (lexes_itemChars hl depth rest)

theorem lexes_memberChars (hl : layout.OnlyBlanks) (depth : Nat) :
    ∀ members : List (String × Json),
      List.Forall₂ Lexes (memberChars layout depth members) (memberTokens members)
  | [] => .nil
  | (name, value) :: rest => by
      obtain ⟨blanks, hcolon, hblanks⟩ := hl.colon
      refine .cons ?_ (lexes_memberChars hl depth rest)
      have hvalue : Lexes (':' :: (blanks ++ value.chars layout depth)) (.colon :: value.tokens) :=
        ((lexes_chars hl depth value).blanks hblanks).sign rfl
      have h := hvalue.quote name.toList
      rw [String.ofList_toList] at h
      rw [hcolon, List.append_assoc]
      exact h

end

end Values

/-- The text of a value is read as its tokens, in any layout and with blanks behind it. -/
theorem lex_chars_append {layout : Layout} (hl : layout.OnlyBlanks) (value : Json)
    {blanks : List Char} (hb : ∀ c ∈ blanks, IsBlank c) :
    lex (value.chars layout 0 ++ blanks) = some value.tokens := by
  have hblanks := lexes_nil.blanks hb [] (fun c hc => nomatch hc)
  rw [List.append_nil, List.append_nil, lex.eq_1] at hblanks
  rw [lexes_chars hl 0 value blanks (noDigit_blanks hb), hblanks]
  exact congrArg some (List.append_nil value.tokens)

theorem lex_compact (value : Json) : lex value.compact.toList = some value.tokens := by
  have hnone : ∀ c ∈ ([] : List Char), IsBlank c := fun c hc => nomatch hc
  have h := lex_chars_append onlyBlanks_compact value hnone
  rw [List.append_nil] at h
  rw [compact, String.toList_ofList, h]

end PerfectKeys.Json
