import Mathlib.Data.List.Chain
import Mathlib.Data.List.TakeWhile
import PerfectKeys.Proofs.Json.Literal
import PerfectKeys.Proofs.Json.Unambiguous

/-!
# The grammar of JSON texts

How each token is written, and which texts consist of which tokens: blanks may stand before
any token and at the end, and nothing else may. `lex` takes apart exactly the texts of the
grammar.

A text that goes wrong somewhere is still taken apart up to there. For texts without numbers
and truth values this needs no condition on what follows, because then every token shows
where it ends.

Whatever a value is, its tokens have no comma in front of a closing bracket.
-/

namespace PerfectKeys.Json

/-! ## The grammar -/

/-- The tokens of a single character. -/
def signs : List (Char × Token) :=
  [('[', .openList), (']', .closeList), ('\x7b', .openObject), ('\x7d', .closeObject),
    (',', .comma), (':', .colon)]

/-- A token and one way to write it. -/
inductive Lexeme : Token → List Char → Prop where
  | sign {c : Char} {t : Token} : (c, t) ∈ signs → Lexeme t [c]
  | true : Lexeme (.bool true) ['t', 'r', 'u', 'e']
  | false : Lexeme (.bool false) ['f', 'a', 'l', 's', 'e']
  /-- Digits, with no zero before other digits. -/
  | num {digits : List Char} :
      digits ≠ [] → (∀ d ∈ digits, d.isDigit = true) →
      (digits.head? = some '0' → digits = ['0']) →
      Lexeme (.num (Nat.ofDigitChars 10 digits 0)) digits
  | str {body chars : List Char} :
      Body body chars → Lexeme (.str (String.ofList chars)) ('"' :: (body ++ ['"']))

/-- The text consists of these tokens, with blanks around them. -/
inductive Spelled : List Token → List Char → Prop where
  | nil : Spelled [] []
  | blank {c : Char} {tokens : List Token} {text : List Char} :
      IsBlank c → Spelled tokens text → Spelled tokens (c :: text)
  /-- A number has to end before the text goes on. -/
  | token {t : Token} {tokens : List Token} {lexeme text : List Char} :
      Lexeme t lexeme → (∀ n, t = .num n → NoDigit text) → Spelled tokens text →
      Spelled (t :: tokens) (lexeme ++ text)

theorem Spelled.sign {c : Char} {t : Token} {tokens : List Token} {text : List Char}
    (hmem : (c, t) ∈ signs) (h : Spelled tokens text) : Spelled (t :: tokens) (c :: text) := by
  refine .token (.sign hmem) (fun n hn => ?_) h
  subst hn
  exact absurd hmem (by simp [signs])

/-! ## Single tokens -/

theorem sign?_eq_some_iff {c : Char} {t : Token} : sign? c = some t ↔ (c, t) ∈ signs := by
  constructor
  · intro h
    unfold sign? at h
    split at h
    all_goals
      cases h
      try exact by decide
  · intro h
    simp only [signs, List.mem_cons, Prod.mk.injEq, List.not_mem_nil, or_false] at h
    rcases h with ⟨rfl, rfl⟩ | ⟨rfl, rfl⟩ | ⟨rfl, rfl⟩ | ⟨rfl, rfl⟩ | ⟨rfl, rfl⟩ | ⟨rfl, rfl⟩
    all_goals rfl

/-- Neither a truth value nor a number. -/
def Token.IsPlain : Token → Prop
  | .bool _ | .num _ => False
  | _ => True

/-- How a plain token starts. -/
def StartsPlain (c : Char) : Prop := c = '"' ∨ ∃ t, (c, t) ∈ signs

theorem not_startsPlain_of_isDigit {c : Char} (h : c.isDigit = true) : ¬ StartsPlain c := by
  rintro (rfl | ⟨t, hmem⟩)
  · cases h
  · have hsign := (token?_sign (sign?_eq_some_iff.mpr hmem) []).2.1
    rw [h] at hsign
    cases hsign

/-- The first character of a token is no blank, and tells whether the token is a plain one. -/
theorem Lexeme.exists_cons {t : Token} {lexeme : List Char} (h : Lexeme t lexeme) :
    ∃ c more, lexeme = c :: more ∧ ¬ IsBlank c ∧ (t.IsPlain ↔ StartsPlain c) := by
  cases h with
  | @sign c t hmem =>
      have hblank := (token?_sign (sign?_eq_some_iff.mpr hmem) []).1
      have hplain : t.IsPlain := by
        simp only [signs, List.mem_cons, Prod.mk.injEq, List.not_mem_nil, or_false] at hmem
        rcases hmem with ⟨-, rfl⟩ | ⟨-, rfl⟩ | ⟨-, rfl⟩ | ⟨-, rfl⟩ | ⟨-, rfl⟩ | ⟨-, rfl⟩
        all_goals trivial
      exact ⟨c, [], rfl, hblank, iff_of_true hplain (.inr ⟨t, hmem⟩)⟩
  | true => exact ⟨'t', _, rfl, by decide, iff_of_false id (by simp [StartsPlain, signs])⟩
  | false => exact ⟨'f', _, rfl, by decide, iff_of_false id (by simp [StartsPlain, signs])⟩
  | num hne hdigit hlead =>
      obtain ⟨c, more, rfl⟩ := List.exists_cons_of_ne_nil hne
      have hc := hdigit c List.mem_cons_self
      exact ⟨c, more, rfl, not_isBlank_of_isDigit hc,
        iff_of_false id (not_startsPlain_of_isDigit hc)⟩
  | str _ => exact ⟨'"', _, rfl, by decide, iff_of_true trivial (.inl rfl)⟩

theorem noDigit_dropWhile (text : List Char) : NoDigit (text.dropWhile Char.isDigit) := by
  intro c hc
  have h := List.head?_dropWhile_not Char.isDigit text
  rw [hc] at h
  exact h

/-- **The token at the start of a text is one that the grammar derives.** -/
theorem token?_eq_some_iff {t : Token} {text rest : List Char} :
    token? text = some (t, rest) ↔
      ∃ lexeme, text = lexeme ++ rest ∧ Lexeme t lexeme ∧ ∀ n, t = .num n → NoDigit rest := by
  constructor
  · intro h
    unfold token? at h
    split at h
    · cases h
    · next tail =>
      obtain ⟨⟨chars, rest'⟩, hquote, heq⟩ := Option.map_eq_some_iff.mp h
      cases heq
      obtain ⟨body, rfl, hbody⟩ := unquote_eq_some_iff.mp hquote
      exact ⟨'"' :: (body ++ ['"']), by simp, .str hbody, fun n hn => nomatch hn⟩
    · cases h
      exact ⟨_, rfl, .true, fun n hn => nomatch hn⟩
    · cases h
      exact ⟨_, rfl, .false, fun n hn => nomatch hn⟩
    · next c tail _ _ _ =>
      split_ifs at h with hc
      · dsimp only at h
        split_ifs at h with hzero
        cases h
        refine ⟨c :: tail.takeWhile Char.isDigit, ?_, .num (by simp) ?_ ?_, fun _ _ => ?_⟩
        · rw [List.cons_append, List.takeWhile_append_dropWhile]
        · intro d hd
          rcases List.mem_cons.mp hd with rfl | hd
          · exact hc
          · exact List.mem_takeWhile_imp hd
        · intro hhead
          cases hhead
          by_contra hmore
          exact hzero ⟨rfl, fun hnil => hmore (by rw [hnil])⟩
        · exact noDigit_dropWhile tail
      · obtain ⟨sign, hsign, heq⟩ := Option.map_eq_some_iff.mp h
        cases heq
        refine ⟨[c], rfl, .sign (sign?_eq_some_iff.mp hsign), fun n hn => ?_⟩
        subst hn
        exact absurd (sign?_eq_some_iff.mp hsign) (by simp [signs])
  · rintro ⟨lexeme, rfl, hlexeme, hrest⟩
    cases hlexeme with
    | sign hmem => exact (token?_sign (sign?_eq_some_iff.mpr hmem) rest).2.2
    | true => rfl
    | false => rfl
    | num hne hdigit hlead => exact token?_number hne hdigit hlead (hrest _ rfl)
    | @str body chars hbody =>
        show (unquote (body ++ ['"'] ++ rest)).map _ = _
        rw [List.append_assoc, unquote_append hbody]
        show some (Token.str (String.ofList (chars ++ [])), rest) = _
        rw [List.append_nil]

/-- Quoted characters are a literal for their text, and for no other. -/
theorem lexeme_quote_iff {text : String} {chars : List Char} :
    Lexeme (.str text) (quote chars) ↔ text = String.ofList chars := by
  have hread : token? (quote chars) = some (.str (String.ofList chars), []) := by
    rw [← List.append_nil (quote chars)]
    exact token?_quote chars []
  constructor
  · intro h
    have htoken := token?_eq_some_iff.mpr
      ⟨quote chars, (List.append_nil _).symm, h, fun n hn => nomatch hn⟩
    rw [hread] at htoken
    cases htoken
    rfl
  · rintro rfl
    obtain ⟨lexeme, heq, hlexeme, -⟩ := token?_eq_some_iff.mp hread
    rwa [heq, List.append_nil]

/-! ## Whole texts -/

theorem exists_token_of_lex {c : Char} {rest : List Char} {tokens : List Token}
    (hc : ¬ IsBlank c) (h : lex (c :: rest) = some tokens) :
    ∃ t tail more, token? (c :: rest) = some (t, tail) ∧ lex tail = some more ∧
      tokens = t :: more := by
  cases htoken : token? (c :: rest) with
  | none =>
      rw [lex.eq_2, if_neg hc] at h
      split at h
      · cases h
      · next h' =>
        rw [htoken] at h'
        cases h'
  | some p =>
      obtain ⟨t, tail⟩ := p
      rw [lex_of_token? hc htoken] at h
      obtain ⟨more, hmore, rfl⟩ := Option.map_eq_some_iff.mp h
      exact ⟨t, tail, more, rfl, hmore, rfl⟩

/-- **A text is taken apart into the tokens that the grammar finds in it.** -/
theorem lex_eq_some_iff {text : List Char} {tokens : List Token} :
    lex text = some tokens ↔ Spelled tokens text := by
  constructor
  · intro h
    induction text using lex.induct generalizing tokens with
    | case1 =>
        rw [lex.eq_1] at h
        cases h
        exact .nil
    | case2 c rest hc ih =>
        rw [lex_of_isBlank hc] at h
        exact .blank hc (ih h)
    | case3 c rest hc htoken =>
        obtain ⟨t, tail, more, h', -⟩ := exists_token_of_lex hc h
        rw [htoken] at h'
        cases h'
    | case4 c rest hc t tail htoken hlt ih =>
        obtain ⟨t', tail', more, h', hmore, rfl⟩ := exists_token_of_lex hc h
        rw [htoken] at h'
        cases h'
        obtain ⟨lexeme, htext, hlexeme, hrest⟩ := token?_eq_some_iff.mp htoken
        rw [htext]
        exact .token hlexeme hrest (ih hmore)
  · intro h
    induction h with
    | nil => exact lex.eq_1
    | blank hc _ ih => rw [lex_of_isBlank hc, ih]
    | @token t tokens lexeme text hlexeme hrest _ ih =>
        obtain ⟨c, more, rfl, hc, -⟩ := hlexeme.exists_cons
        have htoken : token? (c :: (more ++ text)) = some (t, text) :=
          token?_eq_some_iff.mpr ⟨c :: more, rfl, hlexeme, hrest⟩
        show lex (c :: (more ++ text)) = _
        rw [lex_of_token? hc htoken, ih]
        rfl

theorem spelled_compact (value : Json) : Spelled value.tokens value.compact.toList :=
  lex_eq_some_iff.mp (lex_compact value)

/-- Texts without tokens are blank. -/
theorem Spelled.isBlank {tokens : List Token} {text : List Char} (h : Spelled tokens text)
    (hnil : tokens = []) : ∀ c ∈ text, IsBlank c := by
  induction h with
  | nil =>
      intro c hc
      cases hc
  | blank hblank _ ih =>
      intro c hc
      rcases List.mem_cons.mp hc with rfl | hc
      · exact hblank
      · exact ih hnil c hc
  | token _ _ _ _ => cases hnil

/-- Where no token starts, nothing is taken apart. -/
theorem lex_eq_none {c : Char} {rest : List Char} (hc : ¬ IsBlank c)
    (h : token? (c :: rest) = none) : lex (c :: rest) = none := by
  cases hlex : lex (c :: rest) with
  | none => rfl
  | some tokens =>
      obtain ⟨t, tail, more, htoken, -⟩ := exists_token_of_lex hc hlex
      rw [h] at htoken
      cases htoken

/-- Nor is it where a string goes wrong. -/
theorem lex_string_eq_none {body chars text : List Char} (hbody : Body body chars)
    (htext : unquote text = none) : lex ('"' :: (body ++ text)) = none := by
  refine lex_eq_none (by decide) ?_
  rw [token?.eq_2, unquote_append hbody, htext]
  rfl

/-! ## Texts of plain tokens -/

/-- Plain tokens end where they end, whatever follows. -/
theorem Lexeme.token?_append {t : Token} {lexeme : List Char} (h : Lexeme t lexeme)
    (ht : t.IsPlain) (text : List Char) : token? (lexeme ++ text) = some (t, text) := by
  refine token?_eq_some_iff.mpr ⟨lexeme, rfl, h, fun n hn => ?_⟩
  subst hn
  exact ht.elim

/-- A text of plain tokens starts with a blank or with a plain token. -/
theorem startsPlain_of_lex {c : Char} {rest : List Char} {tokens : List Token}
    (hc : ¬ IsBlank c) (h : lex (c :: rest) = some tokens) (hplain : ∀ t ∈ tokens, t.IsPlain) :
    StartsPlain c := by
  obtain ⟨t, tail, more, htoken, -, rfl⟩ := exists_token_of_lex hc h
  obtain ⟨lexeme, htext, hlexeme, -⟩ := token?_eq_some_iff.mp htoken
  obtain ⟨c', more', rfl, -, hstart⟩ := hlexeme.exists_cons
  obtain ⟨rfl, -⟩ := List.cons.inj htext
  exact hstart.mp (hplain t List.mem_cons_self)

/-- **What a text of plain tokens starts with is its first tokens.** -/
theorem Spelled.exists_more {tokens all : List Token} {text rest : List Char}
    (h : Spelled tokens text) (hall : lex (text ++ rest) = some all)
    (hplain : ∀ t ∈ all, t.IsPlain) :
    ∃ others, lex rest = some others ∧ all = tokens ++ others := by
  induction h generalizing all with
  | nil => exact ⟨all, hall, rfl⟩
  | blank hc _ ih =>
      rw [List.cons_append, lex_of_isBlank hc] at hall
      exact ih hall hplain
  | @token t tokens lexeme text hlexeme _ _ ih =>
      obtain ⟨c, more, rfl, hc, hstart⟩ := hlexeme.exists_cons
      rw [List.append_assoc, List.cons_append] at hall
      have ht := hstart.mpr (startsPlain_of_lex hc hall hplain)
      have htoken : token? (c :: (more ++ (text ++ rest))) = some (t, text ++ rest) :=
        hlexeme.token?_append ht (text ++ rest)
      obtain ⟨t', tail, following, htoken', hlex, rfl⟩ := exists_token_of_lex hc hall
      rw [htoken] at htoken'
      cases htoken'
      obtain ⟨others, hothers, rfl⟩ := ih hlex fun t ht => hplain t (List.mem_cons_of_mem _ ht)
      exact ⟨others, hothers, rfl⟩

/-! ## Commas -/

/-- A closing bracket does not stand behind a comma. -/
def Follows (t u : Token) : Prop := t = .comma → u ≠ .closeList ∧ u ≠ .closeObject

/-- Tokens that may stand between commas. -/
structure Tidy (tokens : List Token) : Prop where
  nonempty : tokens ≠ []
  first : ∀ t ∈ tokens.head?, t ≠ .closeList ∧ t ≠ .closeObject
  last : ∀ t ∈ tokens.getLast?, t ≠ .comma
  chain : tokens.IsChain Follows

theorem tidy_singleton {t : Token} (hlist : t ≠ .closeList) (hobject : t ≠ .closeObject)
    (hcomma : t ≠ .comma) : Tidy [t] where
  nonempty := List.cons_ne_nil _ _
  first := by
    intro u hu
    cases hu
    exact ⟨hlist, hobject⟩
  last := by
    intro u hu
    cases hu
    exact hcomma
  chain := .singleton t

section Tidy

variable {one other : List Token}

/-- Two parts, with a comma or a colon between them. -/
theorem Tidy.append_cons (hone : Tidy one) (hother : Tidy other) (t : Token) :
    Tidy (one ++ t :: other) where
  nonempty := List.append_ne_nil_of_left_ne_nil hone.nonempty _
  first := by
    rw [List.head?_append_of_ne_nil _ hone.nonempty]
    exact hone.first
  last := by
    rw [List.getLast?_append_cons, List.getLast?_cons_of_ne_nil hother.nonempty]
    exact hother.last
  chain := by
    rw [List.isChain_append, List.isChain_cons]
    refine ⟨hone.chain, ⟨fun u hu _ => hother.first u hu, hother.chain⟩, fun u hu v _ h => ?_⟩
    exact absurd h (hone.last u hu)

theorem tidy_commaSeparated {groups : List (List Token)} (hne : groups ≠ [])
    (h : ∀ group ∈ groups, Tidy group) : Tidy (commaSeparated groups) := by
  induction groups with
  | nil => exact absurd rfl hne
  | cons group rest ih =>
      have hgroup := h group List.mem_cons_self
      cases rest with
      | nil => exact hgroup
      | cons next rest =>
          rw [commaSeparated.eq_3 _ _ (by simp)]
          have hrest := ih (by simp) fun g hg => h g (List.mem_cons_of_mem group hg)
          exact hgroup.append_cons hrest .comma

/-- A closing bracket may stand behind all but a comma. -/
theorem tidy_enclose {first last : Token} {groups : List (List Token)}
    (hfirst : Tidy [first]) (hlast : last ≠ .comma) (h : ∀ group ∈ groups, Tidy group) :
    Tidy (first :: commaSeparated groups ++ [last]) := by
  have hcomma : first ≠ .comma := hfirst.last first rfl
  refine ⟨List.cons_ne_nil _ _, hfirst.first, ?_, ?_⟩
  · rw [List.getLast?_append_cons]
    intro t ht
    cases ht
    exact hlast
  · cases groups with
    | nil =>
        refine .cons_cons (fun h => absurd h hcomma) (.singleton last)
    | cons group rest =>
        have hinner := tidy_commaSeparated (List.cons_ne_nil group rest) h
        rw [List.isChain_append, List.isChain_cons]
        refine ⟨⟨fun t _ h => absurd h hcomma, hinner.chain⟩, .singleton last,
          fun t ht u _ h => ?_⟩
        rw [List.getLast?_cons_of_ne_nil hinner.nonempty] at ht
        exact absurd h (hinner.last t ht)

end Tidy

mutual

theorem tidy_tokens : ∀ value : Json, Tidy value.tokens
  | bool _ | num _ | str _ => by
      rw [tokens]
      exact tidy_singleton (by simp) (by simp) (by simp)
  | arr items => by
      rw [tokens]
      exact tidy_enclose (tidy_singleton (by simp) (by simp) (by simp)) (by simp)
        (tidy_itemTokens items)
  | obj members => by
      rw [tokens]
      exact tidy_enclose (tidy_singleton (by simp) (by simp) (by simp)) (by simp)
        (tidy_memberTokens members)

theorem tidy_itemTokens : ∀ items : List Json, ∀ group ∈ itemTokens items, Tidy group
  | [] => by
      intro group hgroup
      rw [itemTokens] at hgroup
      cases hgroup
  | item :: rest => by
      intro group hgroup
      rw [itemTokens] at hgroup
      rcases List.mem_cons.mp hgroup with rfl | hgroup
      · exact tidy_tokens item
      · exact tidy_itemTokens rest group hgroup

theorem tidy_memberTokens :
    ∀ members : List (String × Json), ∀ group ∈ memberTokens members, Tidy group
  | [] => by
      intro group hgroup
      rw [memberTokens] at hgroup
      cases hgroup
  | (name, value) :: rest => by
      intro group hgroup
      rw [memberTokens] at hgroup
      rcases List.mem_cons.mp hgroup with rfl | hgroup
      · have hname : Tidy [.str name] := tidy_singleton (by simp) (by simp) (by simp)
        exact hname.append_cons (tidy_tokens value) .colon
      · exact tidy_memberTokens rest group hgroup

end

/-- **No value has a comma in front of a closing bracket.** -/
theorem tokens_ne_trailing_comma (value : Json) {close : Token}
    (hclose : close = .closeList ∨ close = .closeObject) (before after : List Token) :
    value.tokens ≠ before ++ .comma :: close :: after := by
  intro h
  have hchain := (tidy_tokens value).chain
  rw [h, List.isChain_append, List.isChain_cons] at hchain
  obtain ⟨hlist, hobject⟩ := hchain.2.1.1 close rfl rfl
  rcases hclose with hclose | hclose
  · exact hlist hclose
  · exact hobject hclose

end PerfectKeys.Json
