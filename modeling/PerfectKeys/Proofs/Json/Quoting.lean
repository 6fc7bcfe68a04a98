import Mathlib.Tactic.SplitIfs
import PerfectKeys.Json.Quoted

/-!
# Quoted strings are read back

A character is written in one of three ways: behind a backslash by a letter of its own, as
a `\u` escape, or as it stands. `scan` reads each of them as one piece and goes on behind
it. The `\u` escapes that are written stand for characters below the space, so `join` has no
pairs to put together and every piece gives its character back.
-/

namespace PerfectKeys.Json

/-- What the writing of a character is read as. -/
def piece (c : Char) : Piece :=
  if shortEscape? c = none ∧ c.toNat < 0x20 then .unit c.toNat else .char c

/-- Control characters are none of those from the blank on. -/
theorem ne_of_control {c d : Char} (hc : c.toNat < 0x20) (hd : 0x20 ≤ d.toNat) : c ≠ d := by
  rintro rfl
  omega

theorem shortEscaped?_of_shortEscape? {c letter : Char} (h : shortEscape? c = some letter) :
    letter ≠ 'u' ∧ shortEscaped? letter = some c := by
  unfold shortEscape? at h
  split_ifs at h
  all_goals
    subst c
    cases h
    decide

/-- Characters that are written as they stand are not special to the reader. -/
theorem ne_of_shortEscape?_eq_none {c : Char} (h : shortEscape? c = none) :
    c ≠ '"' ∧ c ≠ '\\' := by
  constructor
  · rintro rfl
    cases h
  · rintro rfl
    cases h

theorem hexDigit?_digitChar {n : Nat} (h : n < 16) : hexDigit? (Nat.digitChar n) = some n := by
  revert n
  decide

theorem unit?_of_lt {n : Nat} (h : n < 0x20) :
    unit? '0' '0' (Nat.digitChar (n / 16)) (Nat.digitChar (n % 16)) = some n := by
  have hhigh := hexDigit?_digitChar (show n / 16 < 16 by omega)
  have hlow := hexDigit?_digitChar (show n % 16 < 16 by omega)
  have hzero : hexDigit? '0' = some 0 := rfl
  unfold unit?
  rw [hzero, hhigh, hlow]
  show some (((0 * 16 + 0) * 16 + n / 16) * 16 + n % 16) = some n
  rw [show ((0 * 16 + 0) * 16 + n / 16) * 16 + n % 16 = n by omega]

/-- **The writing of a character is read as one piece.** -/
theorem scan_escapeChar_append (c : Char) (text : List Char) :
    scan (escapeChar c ++ text) = (scan text).map fun p => (piece c :: p.1, p.2) := by
  -- Behind the piece that was read, `scan` goes on with `text` in every branch.
  have hmap (p : Piece) : ((scan text).bind fun q => some (p :: q.1, q.2)) =
      (scan text).map fun q => (p :: q.1, q.2) := Option.map_eq_bind.symm
  unfold escapeChar piece
  cases hshort : shortEscape? c with
  | some letter =>
      obtain ⟨hu, hletter⟩ := shortEscaped?_of_shortEscape? hshort
      show scan ('\\' :: letter :: text) = _
      rw [scan.eq_4 letter text fun _ _ _ _ _ h _ => hu h, hletter]
      exact hmap (.char c)
  | none =>
      dsimp only
      by_cases hlow : c.toNat < 0x20
      · rw [if_pos hlow, if_pos ⟨rfl, hlow⟩]
        show scan ('\\' :: 'u' :: '0' :: '0' :: _ :: _ :: text) = _
        rw [scan.eq_3, unit?_of_lt hlow]
        exact hmap (.unit c.toNat)
      · obtain ⟨hquote, hslash⟩ := ne_of_shortEscape?_eq_none hshort
        have hplain : ¬ (c = '\\' ∨ c.toNat < 0x20) := by
          rintro (h | h)
          · exact hslash h
          · exact hlow h
        rw [if_neg hlow, if_neg fun h => hlow h.2]
        show scan (c :: text) = _
        rw [scan.eq_5 c text hquote (fun _ _ _ _ _ h _ => hslash h) (fun _ _ h _ => hslash h),
          if_neg hplain]
        exact hmap (.char c)

theorem scan_quote (chars rest : List Char) :
    scan (chars.flatMap escapeChar ++ '"' :: rest) = some (chars.map piece, rest) := by
  induction chars with
  | nil => rw [List.flatMap_nil, List.nil_append, scan.eq_2]; rfl
  | cons c chars ih =>
      rw [List.flatMap_cons, List.append_assoc, scan_escapeChar_append, ih]
      rfl

/-- A unit that is no surrogate is the character with its number. -/
theorem join_unit_cons {u : Nat} (hleading : ¬ IsLeading u) (htrailing : ¬ IsTrailing u)
    (pieces : List Piece) :
    join (.unit u :: pieces) = (join pieces).map (Char.ofNat u :: ·) := by
  have hlone : ¬ (IsLeading u ∨ IsTrailing u) := not_or.mpr ⟨hleading, htrailing⟩
  cases pieces with
  | nil => rw [join.eq_4 u [] (by simp), if_neg hlone]
  | cons p pieces =>
      cases p with
      | char c => rw [join.eq_4 u _ (by simp), if_neg hlone]
      | unit v => rw [join.eq_3, if_neg hleading, if_neg htrailing]

/-- Units below the surrogates are none. -/
theorem not_surrogate_of_lt {u : Nat} (h : u < 0xD800) : ¬ IsLeading u ∧ ¬ IsTrailing u := by
  unfold IsLeading IsTrailing
  omega

theorem join_map_piece (chars : List Char) : join (chars.map piece) = some chars := by
  induction chars with
  | nil => rfl
  | cons c chars ih =>
      rw [List.map_cons, piece]
      split
      · next h =>
        obtain ⟨hleading, htrailing⟩ := not_surrogate_of_lt (u := c.toNat) (by omega)
        rw [join_unit_cons hleading htrailing, ih, Char.ofNat_toNat]
        rfl
      · rw [join, ih]; rfl

/-- **A quoted string is read back, whatever stands behind it.** -/
theorem unquote_quote (chars rest : List Char) :
    unquote (chars.flatMap escapeChar ++ '"' :: rest) = some (chars, rest) := by
  unfold unquote
  rw [scan_quote]
  show (do
    let chars ← join (chars.map piece)
    return (chars, rest)) = _
  rw [join_map_piece]
  rfl

end PerfectKeys.Json
