import PerfectKeys.Json.Value

/-!
# JSON tokens

A JSON text is a sequence of tokens with blanks anywhere between them. `Json.tokens` says
which tokens spell a value, `Json.lex` which tokens a text consists of; a text spells a
value when the two agree.

Among numbers, `lex` knows the natural ones, which are the only ones a `Json` value holds.
-/

namespace PerfectKeys.Json

/-- The smallest meaningful parts of a JSON text. -/
inductive Token where
  | openList
  | closeList
  | openObject
  | closeObject
  | comma
  | colon
  | bool (b : Bool)
  | num (n : Nat)
  /-- A string, with its escapes resolved. -/
  | str (s : String)
  deriving DecidableEq

/-! ## The tokens of a value -/

/-- Groups of tokens with a comma between any two of them. -/
def commaSeparated : List (List Token) → List Token
  | [] => []
  | [group] => group
  | group :: rest => group ++ .comma :: commaSeparated rest

mutual

/-- The tokens that spell a value. -/
def tokens : Json → List Token
  | bool b => [.bool b]
  | num n => [.num n]
  | str s => [.str s]
  | arr items => .openList :: commaSeparated (itemTokens items) ++ [.closeList]
  | obj members => .openObject :: commaSeparated (memberTokens members) ++ [.closeObject]

/-- The tokens of each item of a list. -/
def itemTokens : List Json → List (List Token)
  | [] => []
  | item :: rest => item.tokens :: itemTokens rest

/-- The tokens of each member of an object. -/
def memberTokens : List (String × Json) → List (List Token)
  | [] => []
  | (name, value) :: rest => (.str name :: .colon :: value.tokens) :: memberTokens rest

end

/-! ## The tokens of a text -/

/-- The characters that may stand between tokens. -/
def IsBlank (c : Char) : Prop := c = ' ' ∨ c = '\n' ∨ c = '\t' ∨ c = '\r'

instance : DecidablePred IsBlank :=
  fun c => inferInstanceAs (Decidable (c = ' ' ∨ c = '\n' ∨ c = '\t' ∨ c = '\r'))

/-- The token that a sign is. -/
def sign? : Char → Option Token
  | '[' => some .openList
  | ']' => some .closeList
  | '\x7b' => some .openObject
  | '\x7d' => some .closeObject
  | ',' => some .comma
  | ':' => some .colon
  | _ => none

/-- The token at the start of a text, and what follows it. Only `0` itself starts with a zero. -/
def token? (text : List Char) : Option (Token × List Char) :=
  match text with
  | [] => none
  | '"' :: rest => (unquote rest).map (fun (chars, rest) => (.str (String.ofList chars), rest))
  | 't' :: 'r' :: 'u' :: 'e' :: rest => some (.bool true, rest)
  | 'f' :: 'a' :: 'l' :: 's' :: 'e' :: rest => some (.bool false, rest)
  | c :: rest =>
      if c.isDigit then
        let more := rest.takeWhile Char.isDigit
        if c = '0' ∧ more ≠ [] then none
        else some (.num (Nat.ofDigitChars 10 (c :: more) 0), rest.dropWhile Char.isDigit)
      else (sign? c).map (·, rest)

theorem length_lt_of_token? {text rest : List Char} {t : Token}
    (h : token? text = some (t, rest)) : rest.length < text.length := by
  unfold token? at h
  split at h
  · simp at h
  · obtain ⟨⟨_, _⟩, hq, he⟩ := Option.map_eq_some_iff.mp h
    obtain ⟨_, rfl⟩ := Prod.mk.inj he
    have := length_lt_of_unquote hq
    simp only [List.length_cons]
    omega
  · simp only [Option.some.injEq, Prod.mk.injEq] at h
    simp only [← h.2, List.length_cons]
    omega
  · simp only [Option.some.injEq, Prod.mk.injEq] at h
    simp only [← h.2, List.length_cons]
    omega
  · rename_i tail _ _ _
    split at h
    · dsimp only at h
      split at h
      · simp at h
      · simp only [Option.some.injEq, Prod.mk.injEq] at h
        have := (List.dropWhile_suffix Char.isDigit (l := tail)).length_le
        simp only [← h.2, List.length_cons]
        omega
    · obtain ⟨_, _, he⟩ := Option.map_eq_some_iff.mp h
      obtain ⟨_, rfl⟩ := Prod.mk.inj he
      simp

/-- The tokens of a text, in order, if it consists of tokens and blanks. -/
def lex (text : List Char) : Option (List Token) :=
  match text with
  | [] => some []
  | c :: rest =>
      if IsBlank c then lex rest
      else
        match h : token? (c :: rest) with
        | none => none
        | some (t, tail) =>
            have := length_lt_of_token? h
            (lex tail).map (t :: ·)
termination_by text.length
decreasing_by
  · exact Nat.lt_succ_self _
  · exact this

end PerfectKeys.Json
