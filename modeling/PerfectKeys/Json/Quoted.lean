/-!
# Quoted strings of JSON

How the characters of a string are written between double quotes, and how they are
read back.

Writing escapes what JSON requires and nothing else: the double quote, the backslash
and the characters below the space. Reading accepts every escape of the grammar. It
works in two steps, because a character beyond the sixteen-bit range may be spelled by
two `\u` escapes:

* `scan` cuts the string off at its closing quote and resolves each escape on its own,
  into a character or a sixteen-bit unit;
* `join` puts a leading and a trailing surrogate together, and refuses either one alone.
-/

namespace PerfectKeys.Json

/-! ## Writing -/

/-- The letter that stands for a character behind a backslash, where there is one. -/
def shortEscape? (c : Char) : Option Char :=
  if c = '"' then some '"'
  else if c = '\\' then some '\\'
  else if c = '\x08' then some 'b'
  else if c = '\x0c' then some 'f'
  else if c = '\n' then some 'n'
  else if c = '\r' then some 'r'
  else if c = '\t' then some 't'
  else none

/-- One character as it stands inside a quoted string. -/
def escapeChar (c : Char) : List Char :=
  match shortEscape? c with
  | some letter => ['\\', letter]
  | none =>
      if c.toNat < 0x20 then
        ['\\', 'u', '0', '0', Nat.digitChar (c.toNat / 16), Nat.digitChar (c.toNat % 16)]
      else [c]

/-- The characters between double quotes. -/
def quote (chars : List Char) : List Char := '"' :: chars.flatMap escapeChar ++ ['"']

/-! ## Reading -/

/-- What one character or one escape of a quoted string stands for. -/
inductive Piece where
  | char (c : Char)
  /-- A sixteen-bit unit, from a `\u` escape. -/
  | unit (u : Nat)
  deriving DecidableEq

/-- The character that a letter stands for behind a backslash. -/
def shortEscaped? (letter : Char) : Option Char :=
  match letter with
  | '"' => some '"'
  | '\\' => some '\\'
  | '/' => some '/'
  | 'b' => some '\x08'
  | 'f' => some '\x0c'
  | 'n' => some '\n'
  | 'r' => some '\r'
  | 't' => some '\t'
  | _ => none

/-- The value of a hexadecimal digit of either case. -/
def hexDigit? (c : Char) : Option Nat :=
  if '0' ≤ c ∧ c ≤ '9' then some (c.toNat - '0'.toNat)
  else if 'a' ≤ c ∧ c ≤ 'f' then some (c.toNat - 'a'.toNat + 10)
  else if 'A' ≤ c ∧ c ≤ 'F' then some (c.toNat - 'A'.toNat + 10)
  else none

/-- The unit that four hexadecimal digits spell, most significant first. -/
def unit? (a b c d : Char) : Option Nat := do
  let a ← hexDigit? a
  let b ← hexDigit? b
  let c ← hexDigit? c
  let d ← hexDigit? d
  return ((a * 16 + b) * 16 + c) * 16 + d

/-- The pieces up to the closing quote, and what follows the quote. -/
def scan : List Char → Option (List Piece × List Char)
  | [] => none
  | '"' :: rest => some ([], rest)
  | '\\' :: 'u' :: a :: b :: c :: d :: rest => do
      let u ← unit? a b c d
      let (pieces, rest) ← scan rest
      return (.unit u :: pieces, rest)
  | '\\' :: letter :: rest => do
      let c ← shortEscaped? letter
      let (pieces, rest) ← scan rest
      return (.char c :: pieces, rest)
  | c :: rest =>
      if c = '\\' ∨ c.toNat < 0x20 then none
      else do
        let (pieces, rest) ← scan rest
        return (.char c :: pieces, rest)

/-- The first half of a pair. -/
def IsLeading (u : Nat) : Prop := 0xD800 ≤ u ∧ u < 0xDC00

/-- The second half of a pair. -/
def IsTrailing (u : Nat) : Prop := 0xDC00 ≤ u ∧ u < 0xE000

instance : DecidablePred IsLeading := fun u => inferInstanceAs (Decidable (0xD800 ≤ u ∧ u < 0xDC00))

instance : DecidablePred IsTrailing :=
  fun u => inferInstanceAs (Decidable (0xDC00 ≤ u ∧ u < 0xE000))

/-- The character that two halves of a pair spell. -/
def pairChar (u v : Nat) : Char := Char.ofNat (0x10000 + (u - 0xD800) * 0x400 + (v - 0xDC00))

/-- The characters that a sequence of pieces spells. -/
def join : List Piece → Option (List Char)
  | [] => some []
  | .char c :: rest => (join rest).map (c :: ·)
  | .unit u :: .unit v :: rest =>
      if IsLeading u then
        if IsTrailing v then (join rest).map (pairChar u v :: ·) else none
      else if IsTrailing u then none
      else (join (.unit v :: rest)).map (Char.ofNat u :: ·)
  | .unit u :: rest =>
      if IsLeading u ∨ IsTrailing u then none else (join rest).map (Char.ofNat u :: ·)

/-- What a quoted string says, given the text behind its opening quote, and what follows it. -/
def unquote (text : List Char) : Option (List Char × List Char) := do
  let (pieces, rest) ← scan text
  let chars ← join pieces
  return (chars, rest)

/-- A piece stands in front of those that are read behind it. -/
theorem exists_scan_of_bind {tail rest : List Char} {p : Piece} {pieces : List Piece}
    (h : ((scan tail).bind fun q => some (p :: q.1, q.2)) = some (pieces, rest)) :
    ∃ more, pieces = p :: more ∧ scan tail = some (more, rest) := by
  obtain ⟨⟨more, rest'⟩, hscan, heq⟩ := Option.bind_eq_some_iff.mp h
  cases heq
  exact ⟨more, rfl, hscan⟩

/-- A quoted string takes at least its closing quote. -/
theorem length_lt_of_scan {text rest : List Char} {pieces : List Piece}
    (h : scan text = some (pieces, rest)) : rest.length < text.length := by
  fun_induction scan text generalizing pieces rest with
  | case1 => cases h
  | case2 =>
      cases h
      exact Nat.lt_succ_self _
  | case3 a b c d tail ih =>
      obtain ⟨u, -, h⟩ := Option.bind_eq_some_iff.mp h
      obtain ⟨more, -, htail⟩ := exists_scan_of_bind h
      have := ih htail
      simp only [List.length_cons]
      omega
  | case4 letter tail _ ih =>
      obtain ⟨c, -, h⟩ := Option.bind_eq_some_iff.mp h
      obtain ⟨more, -, htail⟩ := exists_scan_of_bind h
      have := ih htail
      simp only [List.length_cons]
      omega
  | case5 => cases h
  | case6 c tail _ _ _ _ ih =>
      obtain ⟨more, -, htail⟩ := exists_scan_of_bind h
      exact Nat.lt_succ_of_lt (ih htail)

theorem length_lt_of_unquote {text chars rest : List Char}
    (h : unquote text = some (chars, rest)) : rest.length < text.length := by
  simp only [unquote, Option.bind_eq_bind, Option.bind_eq_some_iff] at h
  obtain ⟨⟨_, _⟩, hscan, _, _, h⟩ := h
  simp only [Option.pure_def, Option.some.injEq, Prod.mk.injEq] at h
  obtain ⟨_, rfl⟩ := h
  exact length_lt_of_scan hscan

end PerfectKeys.Json
