import PerfectKeys.Proofs.Json.Quoting

/-!
# What may stand between two double quotes

The grammar of quoted strings, as a relation between the text between the quotes and the
characters it stands for. `unquote` accepts what the grammar derives and nothing else.

`scan` and `join` look at a text twice, so the proof goes through the pieces: `scan` cuts a
text into fragments that are one piece each, and `join` turns one or two pieces at a time into
a character, which is where the cases of the grammar come from.
-/

namespace PerfectKeys.Json

/-! ## The grammar -/

/-- The letters that may stand behind a backslash, with the characters they stand for. -/
def shortEscapes : List (Char × Char) :=
  [('"', '"'), ('\\', '\\'), ('/', '/'), ('b', '\x08'), ('f', '\x0c'), ('n', '\n'), ('r', '\r'),
    ('t', '\t')]

/-- A hexadecimal digit, small or capital, and its value. -/
def HexDigit (c : Char) (value : Nat) : Prop :=
  value < 16 ∧ (c = Nat.digitChar value ∨ c = (Nat.digitChar value).toUpper)

/-- A `\u` escape and the sixteen-bit unit it spells. -/
inductive UnitEscape : Nat → List Char → Prop where
  | mk {a b c d : Char} {x y z w : Nat} :
      HexDigit a x → HexDigit b y → HexDigit c z → HexDigit d w →
      UnitEscape (((x * 16 + y) * 16 + z) * 16 + w) ['\\', 'u', a, b, c, d]

/-- The text between two double quotes, and the characters it stands for. -/
inductive Body : List Char → List Char → Prop where
  | nil : Body [] []
  /-- A character as it stands. -/
  | plain {c : Char} {text chars : List Char} :
      c ≠ '"' → c ≠ '\\' → 0x20 ≤ c.toNat → Body text chars → Body (c :: text) (c :: chars)
  | short {letter c : Char} {text chars : List Char} :
      (letter, c) ∈ shortEscapes → Body text chars → Body ('\\' :: letter :: text) (c :: chars)
  /-- A unit that is a character by itself. -/
  | unit {u : Nat} {escape text chars : List Char} :
      UnitEscape u escape → u.isValidChar → Body text chars →
      Body (escape ++ text) (Char.ofNat u :: chars)
  /-- Two surrogates, for a character beyond the sixteen-bit range. -/
  | pair {k l : Nat} {leading trailing text chars : List Char} :
      k < 0x400 → l < 0x400 → UnitEscape (0xD800 + k) leading →
      UnitEscape (0xDC00 + l) trailing → Body text chars →
      Body (leading ++ (trailing ++ text)) (Char.ofNat (0x10000 + k * 0x400 + l) :: chars)

/-! ## Escapes -/

theorem shortEscaped?_eq_some_iff {letter c : Char} :
    shortEscaped? letter = some c ↔ (letter, c) ∈ shortEscapes := by
  constructor
  · intro h
    unfold shortEscaped? at h
    split at h
    all_goals
      cases h
      try exact by decide
  · intro h
    simp only [shortEscapes, List.mem_cons, Prod.mk.injEq, List.not_mem_nil, or_false] at h
    rcases h with ⟨rfl, rfl⟩ | ⟨rfl, rfl⟩ | ⟨rfl, rfl⟩ | ⟨rfl, rfl⟩ | ⟨rfl, rfl⟩ | ⟨rfl, rfl⟩ |
      ⟨rfl, rfl⟩ | ⟨rfl, rfl⟩
    all_goals rfl

theorem hexDigit?_eq_some_iff {c : Char} {value : Nat} :
    hexDigit? c = some value ↔ HexDigit c value := by
  constructor
  · intro h
    have hbound : c.toNat < 0x67 := by
      unfold hexDigit? at h
      split_ifs at h with hdigit hsmall hcapital
      · exact Nat.lt_of_le_of_lt (show c.toNat ≤ '9'.toNat from hdigit.2) (by decide)
      · exact Nat.lt_of_le_of_lt (show c.toNat ≤ 'f'.toNat from hsmall.2) (by decide)
      · exact Nat.lt_of_le_of_lt (show c.toNat ≤ 'F'.toNat from hcapital.2) (by decide)
    have hall : ∀ n < 0x67, ∀ v ∈ hexDigit? (Char.ofNat n), v < 16 ∧
        (Char.ofNat n = Nat.digitChar v ∨ Char.ofNat n = (Nat.digitChar v).toUpper) := by
      decide
    have hc := hall c.toNat hbound
    rw [Char.ofNat_toNat] at hc
    exact hc value h
  · rintro ⟨hvalue, rfl | rfl⟩
    · exact hexDigit?_digitChar hvalue
    · revert value
      decide

theorem unit?_eq_some_iff {a b c d : Char} {u : Nat} :
    unit? a b c d = some u ↔ UnitEscape u ['\\', 'u', a, b, c, d] := by
  constructor
  · intro h
    simp only [unit?, Option.bind_eq_bind, Option.bind_eq_some_iff, Option.pure_def,
      Option.some.injEq] at h
    obtain ⟨x, hx, y, hy, z, hz, w, hw, rfl⟩ := h
    exact .mk (hexDigit?_eq_some_iff.mp hx) (hexDigit?_eq_some_iff.mp hy)
      (hexDigit?_eq_some_iff.mp hz) (hexDigit?_eq_some_iff.mp hw)
  · intro h
    cases h with
    | mk ha hb hc hd =>
        unfold unit?
        rw [hexDigit?_eq_some_iff.mpr ha, hexDigit?_eq_some_iff.mpr hb,
          hexDigit?_eq_some_iff.mpr hc, hexDigit?_eq_some_iff.mpr hd]
        rfl

theorem UnitEscape.lt {u : Nat} {escape : List Char} (h : UnitEscape u escape) :
    u < 0x10000 := by
  cases h with
  | mk ha hb hc hd =>
      have := ha.1
      have := hb.1
      have := hc.1
      have := hd.1
      omega

/-- Sixteen-bit units are characters by themselves unless they are surrogates. -/
theorem isValidChar_iff {u : Nat} (h : u < 0x10000) :
    u.isValidChar ↔ ¬ IsLeading u ∧ ¬ IsTrailing u := by
  unfold Nat.isValidChar IsLeading IsTrailing
  omega

/-! ## Fragments -/

/-- What is read as one piece. -/
inductive Fragment : Piece → List Char → Prop where
  | plain {c : Char} : c ≠ '"' → c ≠ '\\' → 0x20 ≤ c.toNat → Fragment (.char c) [c]
  | short {letter c : Char} : (letter, c) ∈ shortEscapes → Fragment (.char c) ['\\', letter]
  | unit {u : Nat} {escape : List Char} : UnitEscape u escape → Fragment (.unit u) escape

theorem scan_fragment {p : Piece} {fragment : List Char} (h : Fragment p fragment)
    (text : List Char) :
    scan (fragment ++ text) = (scan text).map fun q => (p :: q.1, q.2) := by
  have hmap : ((scan text).bind fun q => some (p :: q.1, q.2)) =
      (scan text).map fun q => (p :: q.1, q.2) := Option.map_eq_bind.symm
  cases h with
  | plain hquote hslash hcontrol =>
      show scan (_ :: text) = _
      rw [scan.eq_5 _ text hquote (fun _ _ _ _ _ h _ => hslash h) (fun _ _ h _ => hslash h),
        if_neg (not_or.mpr ⟨hslash, Nat.not_lt.mpr hcontrol⟩)]
      exact hmap
  | @short letter c hmem =>
      have hu : letter ≠ 'u' := by
        rintro rfl
        exact absurd (shortEscaped?_eq_some_iff.mpr hmem) (by simp [shortEscaped?])
      show scan ('\\' :: letter :: text) = _
      rw [scan.eq_4 letter text fun _ _ _ _ _ h _ => hu h, shortEscaped?_eq_some_iff.mpr hmem]
      exact hmap
  | unit hescape =>
      cases hescape with
      | mk ha hb hc hd =>
          show scan ('\\' :: 'u' :: _ :: _ :: _ :: _ :: text) = _
          rw [scan.eq_3, unit?_eq_some_iff.mpr (.mk ha hb hc hd)]
          exact hmap

/-- All that `scan` accepts: the closing quote, or a fragment in front of what it accepts. -/
theorem scan_cases {text rest : List Char} {pieces : List Piece}
    (h : scan text = some (pieces, rest)) :
    (pieces = [] ∧ text = '"' :: rest) ∨
      ∃ p more fragment tail, pieces = p :: more ∧ text = fragment ++ tail ∧
        Fragment p fragment ∧ scan tail = some (more, rest) := by
  unfold scan at h
  split at h
  · cases h
  · cases h
    exact .inl ⟨rfl, rfl⟩
  · next a b c d tail =>
    obtain ⟨u, hu, h⟩ := Option.bind_eq_some_iff.mp h
    obtain ⟨more, hpieces, hscan⟩ := exists_scan_of_bind h
    exact .inr ⟨_, more, _, tail, hpieces, rfl, .unit (unit?_eq_some_iff.mp hu), hscan⟩
  · next letter tail _ =>
    obtain ⟨c, hc, h⟩ := Option.bind_eq_some_iff.mp h
    obtain ⟨more, hpieces, hscan⟩ := exists_scan_of_bind h
    exact .inr ⟨_, more, _, tail, hpieces, rfl, .short (shortEscaped?_eq_some_iff.mp hc), hscan⟩
  · next c tail hquote _ _ =>
    split_ifs at h with hc
    obtain ⟨hslash, hcontrol⟩ := not_or.mp hc
    obtain ⟨more, hpieces, hscan⟩ := exists_scan_of_bind h
    exact .inr ⟨_, more, [c], tail, hpieces, rfl,
      .plain (fun he => hquote he) hslash (Nat.not_lt.mp hcontrol), hscan⟩

/-! ## Reading by the grammar -/

theorem unquote_eq_bind (text : List Char) :
    unquote text = (scan text).bind fun q => (join q.1).map (·, q.2) := by
  unfold unquote
  cases scan text with
  | none => rfl
  | some q =>
      obtain ⟨pieces, rest⟩ := q
      show ((join pieces).bind fun chars => some (chars, rest)) = (join pieces).map (·, rest)
      cases join pieces with
      | none => rfl
      | some chars => rfl

/-- Pieces that stand for a character together, whatever follows them. -/
theorem unquote_of_scan (read : List Piece) (c : Char) {whole text : List Char}
    (hscan : scan whole = (scan text).map fun q => (read ++ q.1, q.2))
    (hjoin : ∀ pieces, join (read ++ pieces) = (join pieces).map (c :: ·)) :
    unquote whole = (unquote text).map fun q => (c :: q.1, q.2) := by
  rw [unquote_eq_bind, unquote_eq_bind, hscan]
  cases scan text with
  | none => rfl
  | some q =>
      show (join (read ++ q.1)).map (·, q.2) = ((join q.1).map (·, q.2)).map _
      rw [hjoin, Option.map_map, Option.map_map]
      rfl

theorem isLeading_add {k : Nat} (hk : k < 0x400) : IsLeading (0xD800 + k) := by
  unfold IsLeading
  omega

theorem isTrailing_add {l : Nat} (hl : l < 0x400) : IsTrailing (0xDC00 + l) := by
  unfold IsTrailing
  omega

theorem pairChar_add (k l : Nat) :
    pairChar (0xD800 + k) (0xDC00 + l) = Char.ofNat (0x10000 + k * 0x400 + l) := by
  unfold pairChar
  rw [Nat.add_sub_cancel_left, Nat.add_sub_cancel_left]

theorem join_pair_cons {k l : Nat} (hk : k < 0x400) (hl : l < 0x400) (pieces : List Piece) :
    join (.unit (0xD800 + k) :: .unit (0xDC00 + l) :: pieces) =
      (join pieces).map (Char.ofNat (0x10000 + k * 0x400 + l) :: ·) := by
  rw [join.eq_3, if_pos (isLeading_add hk), if_pos (isTrailing_add hl), pairChar_add]

/-- **What the grammar derives is read as what it stands for, and reading goes on behind it.** -/
theorem unquote_append {body chars : List Char} (h : Body body chars) (text : List Char) :
    unquote (body ++ text) = (unquote text).map fun q => (chars ++ q.1, q.2) := by
  induction h with
  | nil =>
      show unquote text = _
      cases unquote text with
      | none => rfl
      | some q => rfl
  | @plain c body chars hquote hslash hcontrol _ ih =>
      have hscan := scan_fragment (.plain hquote hslash hcontrol) (body ++ text)
      have hread := unquote_of_scan [.char c] c hscan fun _ => rfl
      show unquote ([c] ++ (body ++ text)) = _
      rw [hread, ih, Option.map_map]
      rfl
  | @short letter c body chars hmem _ ih =>
      have hscan := scan_fragment (.short hmem) (body ++ text)
      have hread := unquote_of_scan [.char c] c hscan fun _ => rfl
      show unquote (['\\', letter] ++ (body ++ text)) = _
      rw [hread, ih, Option.map_map]
      rfl
  | @unit u escape body chars hescape hvalid _ ih =>
      obtain ⟨hleading, htrailing⟩ := (isValidChar_iff hescape.lt).mp hvalid
      have hscan := scan_fragment (.unit hescape) (body ++ text)
      have hread := unquote_of_scan [.unit u] (Char.ofNat u) hscan
        (join_unit_cons hleading htrailing)
      rw [List.append_assoc, hread, ih, Option.map_map]
      rfl
  | @pair k l leading trailing body chars hk hl hleading htrailing _ ih =>
      -- both escapes have to be read before there is a character
      have hscan : scan (leading ++ (trailing ++ (body ++ text))) =
          (scan (body ++ text)).map fun q =>
            ([.unit (0xD800 + k), .unit (0xDC00 + l)] ++ q.1, q.2) := by
        rw [scan_fragment (.unit hleading), scan_fragment (.unit htrailing), Option.map_map]
        rfl
      have hread := unquote_of_scan _ _ hscan (join_pair_cons hk hl)
      rw [List.append_assoc, List.append_assoc, hread, ih, Option.map_map]
      rfl

theorem exists_fragment_of_scan {text rest : List Char} {p : Piece} {pieces : List Piece}
    (h : scan text = some (p :: pieces, rest)) :
    ∃ fragment tail, text = fragment ++ tail ∧ Fragment p fragment ∧
      scan tail = some (pieces, rest) := by
  rcases scan_cases h with ⟨hnil, -⟩ | ⟨_, _, fragment, tail, hcons, htext, hfragment, htail⟩
  · cases hnil
  · cases hcons
    exact ⟨fragment, tail, htext, hfragment, htail⟩

theorem Fragment.body_append {c : Char} {fragment text chars : List Char}
    (h : Fragment (.char c) fragment) (htext : Body text chars) :
    Body (fragment ++ text) (c :: chars) := by
  cases h with
  | plain hquote hslash hcontrol => exact .plain hquote hslash hcontrol htext
  | short hmem => exact .short hmem htext

theorem Fragment.unitEscape {u : Nat} {fragment : List Char} (h : Fragment (.unit u) fragment) :
    UnitEscape u fragment := by
  cases h with
  | unit h => exact h

/-- A unit that is no surrogate, in front of pieces that have been written in the grammar. -/
theorem exists_body_of_unit {u : Nat} {text rest chars : List Char} {pieces : List Piece}
    (hleading : ¬ IsLeading u) (htrailing : ¬ IsTrailing u)
    (hscan : scan text = some (.unit u :: pieces, rest))
    (hmore : ∀ tail, scan tail = some (pieces, rest) →
      ∃ body, tail = body ++ '"' :: rest ∧ Body body chars) :
    ∃ body, text = body ++ '"' :: rest ∧ Body body (Char.ofNat u :: chars) := by
  obtain ⟨escape, tail, rfl, hescape, htail⟩ := exists_fragment_of_scan hscan
  obtain ⟨body, rfl, hbody⟩ := hmore tail htail
  have hvalid := (isValidChar_iff hescape.unitEscape.lt).mpr ⟨hleading, htrailing⟩
  exact ⟨escape ++ body, (List.append_assoc ..).symm, .unit hescape.unitEscape hvalid hbody⟩

/-- Two halves of a pair, in front of pieces that have been written in the grammar. -/
theorem exists_body_of_pair {u v : Nat} {text rest chars : List Char} {pieces : List Piece}
    (hleading : IsLeading u) (htrailing : IsTrailing v)
    (hscan : scan text = some (.unit u :: .unit v :: pieces, rest))
    (hmore : ∀ tail, scan tail = some (pieces, rest) →
      ∃ body, tail = body ++ '"' :: rest ∧ Body body chars) :
    ∃ body, text = body ++ '"' :: rest ∧ Body body (pairChar u v :: chars) := by
  obtain ⟨first, tail, rfl, hfirst, hscan⟩ := exists_fragment_of_scan hscan
  obtain ⟨second, tail, rfl, hsecond, htail⟩ := exists_fragment_of_scan hscan
  obtain ⟨body, rfl, hbody⟩ := hmore tail htail
  obtain ⟨k, rfl⟩ := Nat.exists_eq_add_of_le hleading.1
  obtain ⟨l, rfl⟩ := Nat.exists_eq_add_of_le htrailing.1
  have hk : k < 0x400 := by have := hleading.2; omega
  have hl : l < 0x400 := by have := htrailing.2; omega
  refine ⟨first ++ (second ++ body), by simp only [List.append_assoc], ?_⟩
  rw [pairChar_add]
  exact .pair hk hl hfirst.unitEscape hsecond.unitEscape hbody

/-- What is joined has been written in the grammar. -/
theorem exists_body_of_join {text rest chars : List Char} {pieces : List Piece}
    (hscan : scan text = some (pieces, rest)) (hjoin : join pieces = some chars) :
    ∃ body, text = body ++ '"' :: rest ∧ Body body chars := by
  induction pieces using join.induct generalizing text chars with
  | case1 =>
      cases hjoin
      rcases scan_cases hscan with ⟨-, htext⟩ | ⟨_, _, _, _, hpieces, -⟩
      · exact ⟨[], htext, .nil⟩
      · cases hpieces
  | case2 c pieces ih =>
      obtain ⟨chars, hchars, rfl⟩ := Option.map_eq_some_iff.mp hjoin
      obtain ⟨fragment, tail, rfl, hfragment, htail⟩ := exists_fragment_of_scan hscan
      obtain ⟨body, rfl, hbody⟩ := ih htail hchars
      exact ⟨fragment ++ body, (List.append_assoc ..).symm, hfragment.body_append hbody⟩
  | case3 u v pieces hleading htrailing ih =>
      rw [join.eq_3, if_pos hleading, if_pos htrailing] at hjoin
      obtain ⟨chars, hchars, rfl⟩ := Option.map_eq_some_iff.mp hjoin
      exact exists_body_of_pair hleading htrailing hscan fun tail htail => ih htail hchars
  | case4 u v pieces hleading htrailing =>
      rw [join.eq_3, if_pos hleading, if_neg htrailing] at hjoin
      cases hjoin
  | case5 u v pieces hleading htrailing =>
      rw [join.eq_3, if_neg hleading, if_pos htrailing] at hjoin
      cases hjoin
  | case6 u v pieces hleading htrailing ih =>
      rw [join.eq_3, if_neg hleading, if_neg htrailing] at hjoin
      obtain ⟨chars, hchars, rfl⟩ := Option.map_eq_some_iff.mp hjoin
      exact exists_body_of_unit hleading htrailing hscan fun tail htail => ih htail hchars
  | case7 u pieces hne hsurrogate =>
      rw [join.eq_4 u pieces hne, if_pos hsurrogate] at hjoin
      cases hjoin
  | case8 u pieces hne hsurrogate ih =>
      rw [join.eq_4 u pieces hne, if_neg hsurrogate] at hjoin
      obtain ⟨hleading, htrailing⟩ := not_or.mp hsurrogate
      obtain ⟨chars, hchars, rfl⟩ := Option.map_eq_some_iff.mp hjoin
      exact exists_body_of_unit hleading htrailing hscan fun tail htail => ih htail hchars

/-- **`unquote` reads what the grammar derives, up to the closing quote.** -/
theorem unquote_eq_some_iff {text chars rest : List Char} :
    unquote text = some (chars, rest) ↔ ∃ body, text = body ++ '"' :: rest ∧ Body body chars := by
  constructor
  · intro h
    rw [unquote_eq_bind] at h
    obtain ⟨⟨pieces, rest'⟩, hscan, hjoin⟩ := Option.bind_eq_some_iff.mp h
    obtain ⟨chars', hchars, heq⟩ := Option.map_eq_some_iff.mp hjoin
    cases heq
    exact exists_body_of_join hscan hchars
  · rintro ⟨body, rfl, hbody⟩
    rw [unquote_append hbody]
    show some (chars ++ [], rest) = _
    rw [List.append_nil]

/-! ## What no string holds -/

theorem unquote_control {c : Char} (h : c.toNat < 0x20) (text : List Char) :
    unquote (c :: text) = none := by
  have hquote : c ≠ '"' := ne_of_control h (by decide)
  have hslash : c ≠ '\\' := ne_of_control h (by decide)
  rw [unquote_eq_bind, scan.eq_5 c text hquote (fun _ _ _ _ _ h _ => hslash h)
    (fun _ _ h _ => hslash h), if_pos (Or.inr h)]
  rfl

theorem join_trailing_cons {v : Nat} (h : IsTrailing v) (pieces : List Piece) :
    join (.unit v :: pieces) = none := by
  have hleading : ¬ IsLeading v := fun hv => Nat.not_lt.mpr h.1 hv.2
  rcases pieces with _ | ⟨c | w, pieces⟩
  · rw [join.eq_4 v [] (by simp), if_pos (Or.inr h)]
  · rw [join.eq_4 v _ (by simp), if_pos (Or.inr h)]
  · rw [join.eq_3, if_neg hleading, if_pos h]

theorem unquote_trailing {l : Nat} {escape : List Char} (hl : l < 0x400)
    (h : UnitEscape (0xDC00 + l) escape) (text : List Char) : unquote (escape ++ text) = none := by
  rw [unquote_eq_bind, scan_fragment (.unit h)]
  cases scan text with
  | none => rfl
  | some q =>
      show (join (.unit (0xDC00 + l) :: q.1)).map (·, q.2) = none
      rw [join_trailing_cons (isTrailing_add hl)]
      rfl

theorem unquote_leading {k : Nat} {escape text : List Char} (hk : k < 0x400)
    (h : UnitEscape (0xD800 + k) escape)
    (hlone : ∀ l trailing tail, l < 0x400 → UnitEscape (0xDC00 + l) trailing →
      text ≠ trailing ++ tail) : unquote (escape ++ text) = none := by
  have hleading := isLeading_add hk
  rw [unquote_eq_bind, scan_fragment (.unit h)]
  cases hscan : scan text with
  | none => rfl
  | some q =>
      obtain ⟨pieces, rest⟩ := q
      show (join (.unit (0xD800 + k) :: pieces)).map (·, rest) = none
      rcases pieces with _ | ⟨c | v, pieces⟩
      · rw [join.eq_4 _ [] (by simp), if_pos (Or.inl hleading)]
        rfl
      · rw [join.eq_4 _ _ (by simp), if_pos (Or.inl hleading)]
        rfl
      · have htrailing : ¬ IsTrailing v := by
          intro hv
          obtain ⟨trailing, tail, htext, hfragment, -⟩ := exists_fragment_of_scan hscan
          have hunit := hfragment.unitEscape
          rw [show v = 0xDC00 + (v - 0xDC00) by have := hv.1; omega] at hunit
          exact hlone _ trailing tail (by have := hv.2; omega) hunit htext
        rw [join.eq_3, if_pos hleading, if_neg htrailing]
        rfl

end PerfectKeys.Json
