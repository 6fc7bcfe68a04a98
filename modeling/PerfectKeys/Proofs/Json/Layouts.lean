import PerfectKeys.Proofs.Json.Grammar

/-!
# The two layouts of a value

A value is written in one line or over indented lines. The indented text has more spaces and
line feeds, and they all stand between tokens. Deleting every space and line feed is a coarse
way to get back to the one-line text, because it would also shorten a string that has a space
in it. A line feed inside a string does no harm: it is written as an escape. So for values whose
strings have no spaces, what is left of the indented text is the compact one.

Blanks between tokens mean nothing, so both texts spell the value, and they spell no other.
-/

namespace PerfectKeys.Json

/-! ## What a text spells -/

/-- By the grammar of tokens and blanks, the text is a writing of the value. -/
def Spells (value : Json) (text : String) : Prop := Spelled value.tokens text.toList

/-- Tokens can be read in one way only, and so can values. -/
theorem spells_iff_of_lex {value : Json} {text : String} (h : lex text.toList = some value.tokens)
    (other : Json) : other.Spells text ↔ other = value := by
  unfold Spells
  rw [← lex_eq_some_iff, h]
  refine ⟨fun heq => tokens_inj (Option.some.inj heq).symm, fun heq => by rw [heq]⟩

/-! ## Deleting blanks -/

/-- What is left of a text without its spaces and line feeds. -/
def squeeze (text : List Char) : List Char := text.filter fun c => c ≠ ' ' ∧ c ≠ '\n'

theorem squeeze_append (text rest : List Char) :
    squeeze (text ++ rest) = squeeze text ++ squeeze rest := List.filter_append _ _

theorem squeeze_eq_self {text : List Char} (h : ∀ c ∈ text, c ≠ ' ' ∧ c ≠ '\n') :
    squeeze text = text :=
  List.filter_eq_self.mpr fun c hc => decide_eq_true (h c hc)

theorem squeeze_cons {c : Char} (hc : ¬ IsBlank c) (rest : List Char) :
    squeeze (c :: rest) = c :: squeeze rest :=
  List.filter_cons_of_pos
    (decide_eq_true ⟨fun h => hc (Or.inl h), fun h => hc (Or.inr (Or.inl h))⟩)

theorem squeeze_newline (depth : Nat) : squeeze (Layout.indented.newline depth) = [] := by
  refine List.filter_eq_nil_iff.mpr fun c hc => ?_
  rcases List.mem_cons.mp hc with rfl | hc
  · decide
  · rw [List.eq_of_mem_replicate hc]
    decide

/-- How a character is written does not bring in blanks. -/
theorem ne_blank_of_mem_escapeChar {c d : Char} (hc : c ≠ ' ') (hd : d ∈ escapeChar c) :
    d ≠ ' ' ∧ d ≠ '\n' := by
  have hletter : ∀ letter, shortEscape? c = some letter → letter ≠ ' ' ∧ letter ≠ '\n' := by
    intro letter h
    unfold shortEscape? at h
    split_ifs at h
    all_goals
      cases h
      decide
  -- the two digits of an escape below the space are taken from these
  have hdigit : ∀ n < 32, Nat.digitChar n ≠ ' ' ∧ Nat.digitChar n ≠ '\n' := by decide
  unfold escapeChar at hd
  cases hshort : shortEscape? c with
  | some letter =>
      rw [hshort] at hd
      rcases List.mem_cons.mp hd with rfl | hd
      · decide
      · rw [List.mem_singleton.mp hd]
        exact hletter letter hshort
  | none =>
      rw [hshort] at hd
      dsimp only at hd
      by_cases hlow : c.toNat < 0x20
      · rw [if_pos hlow] at hd
        simp only [List.mem_cons, List.not_mem_nil, or_false] at hd
        rcases hd with rfl | rfl | rfl | rfl | rfl | rfl
        · decide
        · decide
        · decide
        · decide
        · exact hdigit _ (by omega)
        · exact hdigit _ (by omega)
      · rw [if_neg hlow] at hd
        -- a character that is written as it is: a line feed never is
        rw [List.mem_singleton.mp hd]
        exact ⟨hc, fun h => hlow (by rw [h]; decide)⟩

theorem squeeze_quote {chars : List Char} (h : ' ' ∉ chars) :
    squeeze (quote chars) = quote chars := by
  refine squeeze_eq_self fun d hd => ?_
  unfold quote at hd
  rcases List.mem_append.mp hd with hd | hd
  · rcases List.mem_cons.mp hd with rfl | hd
    · decide
    · obtain ⟨c, hc, hd⟩ := List.mem_flatMap.mp hd
      exact ne_blank_of_mem_escapeChar (ne_of_mem_of_not_mem hc h) hd
  · rw [List.mem_singleton.mp hd]
    decide

theorem squeeze_toDigits (n : Nat) : squeeze (Nat.toDigits 10 n) = Nat.toDigits 10 n := by
  refine squeeze_eq_self fun d hd => ?_
  have hdigit : d.isDigit = true := Nat.isDigit_of_mem_toDigits (by decide) (by decide) hd
  have hblank := not_isBlank_of_isDigit hdigit
  exact ⟨fun h => hblank (Or.inl h), fun h => hblank (Or.inr (Or.inl h))⟩

theorem squeeze_intercalate (separator : List Char) (texts : List (List Char)) :
    squeeze (List.intercalate separator texts)
      = List.intercalate (squeeze separator) (texts.map squeeze) := by
  induction texts with
  | nil => rfl
  | cons text texts ih =>
      cases texts with
      | nil => simp [List.intercalate_singleton]
      | cons next texts =>
          rw [List.intercalate_cons_cons, squeeze_append, squeeze_append, ih]
          exact List.intercalate_cons_cons.symm

theorem enclose_cons (layout : Layout) (depth : Nat) (opening closing : Char) (text : List Char)
    (texts : List (List Char)) : enclose layout depth opening closing (text :: texts) =
      opening :: (layout.newline (depth + 1) ++
        (List.intercalate (',' :: layout.newline (depth + 1)) (text :: texts) ++
          (layout.newline depth ++ [closing]))) := by
  unfold enclose
  simp only [List.cons_append, List.append_assoc]

/-- A list or an object is squeezed item by item. -/
theorem squeeze_enclose (depth : Nat) {opening closing : Char} (ho : ¬ IsBlank opening)
    (hc : ¬ IsBlank closing) (texts : List (List Char)) :
    squeeze (enclose .indented depth opening closing texts)
      = enclose .compact depth opening closing (texts.map squeeze) := by
  cases texts with
  | nil =>
      show squeeze [opening, closing] = [opening, closing]
      rw [squeeze_cons ho, squeeze_cons hc]
      rfl
  | cons text texts =>
      -- blanks stand behind the opening bracket, behind each comma and before the closing one
      have hseparator : squeeze (',' :: Layout.indented.newline (depth + 1)) = [','] := by
        rw [squeeze_cons (by decide), squeeze_newline]
      have hclosing : squeeze [closing] = [closing] := squeeze_cons hc []
      rw [List.map_cons, enclose_cons, enclose_cons, squeeze_cons ho, squeeze_append,
        squeeze_append, squeeze_append, squeeze_newline, squeeze_newline, squeeze_intercalate,
        hseparator, hclosing]
      rfl

/-! ## Values -/

mutual

/-- The strings of a value, the names of members among them. -/
def strings : Json → List String
  | bool _ => []
  | num _ => []
  | str s => [s]
  | arr items => itemStrings items
  | obj members => memberStrings members

/-- The strings of the items of a list. -/
def itemStrings : List Json → List String
  | [] => []
  | item :: rest => item.strings ++ itemStrings rest

/-- The strings of the members of an object. -/
def memberStrings : List (String × Json) → List String
  | [] => []
  | (name, value) :: rest => name :: (value.strings ++ memberStrings rest)

end

/-- None of the strings has a space in it. -/
def Spaceless (value : Json) : Prop := ∀ s ∈ value.strings, ' ' ∉ s.toList

theorem spaceless_bool (b : Bool) : (bool b).Spaceless := by
  intro s hs
  rw [strings] at hs
  cases hs

theorem spaceless_num (n : Nat) : (num n).Spaceless := by
  intro s hs
  rw [strings] at hs
  cases hs

theorem spaceless_str {s : String} (h : ' ' ∉ s.toList) : (str s).Spaceless := by
  intro s' hs
  rw [strings] at hs
  rwa [List.mem_singleton.mp hs]

theorem spaceless_arr {items : List Json} (h : ∀ item ∈ items, item.Spaceless) :
    (arr items).Spaceless := by
  intro s hs
  rw [strings] at hs
  induction items with
  | nil =>
      rw [itemStrings] at hs
      cases hs
  | cons item rest ih =>
      rw [itemStrings] at hs
      rcases List.mem_append.mp hs with hs | hs
      · exact h item List.mem_cons_self s hs
      · exact ih (fun other hother => h other (List.mem_cons_of_mem item hother)) hs

theorem spaceless_obj {members : List (String × Json)}
    (h : ∀ name value, (name, value) ∈ members → ' ' ∉ name.toList ∧ value.Spaceless) :
    (obj members).Spaceless := by
  intro s hs
  rw [strings] at hs
  induction members with
  | nil =>
      rw [memberStrings] at hs
      cases hs
  | cons member rest ih =>
      obtain ⟨hname, hvalue⟩ := h member.1 member.2 List.mem_cons_self
      rw [memberStrings] at hs
      rcases List.mem_cons.mp hs with rfl | hs
      · exact hname
      · rcases List.mem_append.mp hs with hs | hs
        · exact hvalue s hs
        · exact ih (fun name value hmem => h name value (List.mem_cons_of_mem member hmem)) hs

mutual

/-- **Without spaces in its strings, a value has the same text in both layouts but for blanks.** -/
theorem squeeze_chars (depth : Nat) : ∀ value : Json, value.Spaceless →
    squeeze (value.chars .indented depth) = value.chars .compact depth
  | bool true, _ => by
      rw [chars, chars]
      decide
  | bool false, _ => by
      rw [chars, chars]
      decide
  | num n, _ => by
      rw [chars, chars]
      exact squeeze_toDigits n
  | str s, h => by
      rw [Spaceless, strings] at h
      rw [chars, chars]
      exact squeeze_quote (h s List.mem_cons_self)
  | arr items, h => by
      rw [Spaceless, strings] at h
      rw [chars, chars, squeeze_enclose depth (by decide) (by decide),
        map_squeeze_itemChars (depth + 1) items h]
  | obj members, h => by
      rw [Spaceless, strings] at h
      rw [chars, chars, squeeze_enclose depth (by decide) (by decide),
        map_squeeze_memberChars (depth + 1) members h]

theorem map_squeeze_itemChars (depth : Nat) : ∀ items : List Json,
    (∀ s ∈ itemStrings items, ' ' ∉ s.toList) →
      (itemChars .indented depth items).map squeeze = itemChars .compact depth items
  | [], _ => by
      rw [itemChars, itemChars]
      rfl
  | item :: rest, h => by
      rw [itemStrings] at h
      obtain ⟨hitem, hrest⟩ := List.forall_mem_append.mp h
      rw [itemChars, itemChars, List.map_cons, squeeze_chars depth item hitem,
        map_squeeze_itemChars depth rest hrest]

theorem map_squeeze_memberChars (depth : Nat) : ∀ members : List (String × Json),
    (∀ s ∈ memberStrings members, ' ' ∉ s.toList) →
      (memberChars .indented depth members).map squeeze = memberChars .compact depth members
  | [], _ => by
      rw [memberChars, memberChars]
      rfl
  | (name, value) :: rest, h => by
      rw [memberStrings] at h
      obtain ⟨hname, hmore⟩ := List.forall_mem_cons.mp h
      obtain ⟨hvalue, hrest⟩ := List.forall_mem_append.mp hmore
      have hcolon : squeeze Layout.indented.colon = Layout.compact.colon := by decide
      rw [memberChars, memberChars, List.map_cons, squeeze_append, squeeze_append,
        squeeze_quote hname, hcolon, squeeze_chars depth value hvalue,
        map_squeeze_memberChars depth rest hrest]

end

/-- The text of a value ends in a character that is no blank. -/
theorem exists_chars_eq_append (layout : Layout) (depth : Nat) (value : Json) :
    ∃ body last, value.chars layout depth = body ++ [last] ∧ ¬ IsBlank last := by
  have hclose (opening closing : Char) (texts : List (List Char)) :
      ∃ body, enclose layout depth opening closing texts = body ++ [closing] := by
    cases texts with
    | nil => exact ⟨[opening], rfl⟩
    | cons text texts => exact ⟨_, rfl⟩
  cases value with
  | bool b =>
      cases b with
      | true => exact ⟨['t', 'r', 'u'], 'e', by rw [chars]; rfl, by decide⟩
      | false => exact ⟨['f', 'a', 'l', 's'], 'e', by rw [chars]; rfl, by decide⟩
  | num n =>
      have hne : Nat.toDigits 10 n ≠ [] := Nat.toDigits_ne_nil
      have hdigit : ((Nat.toDigits 10 n).getLast hne).isDigit = true :=
        Nat.isDigit_of_mem_toDigits (by decide) (by decide) (List.getLast_mem hne)
      rw [chars]
      exact ⟨_, _, (List.dropLast_append_getLast hne).symm, not_isBlank_of_isDigit hdigit⟩
  | str s =>
      rw [chars]
      exact ⟨_, '"', rfl, by decide⟩
  | arr items =>
      rw [chars]
      obtain ⟨body, hbody⟩ := hclose '[' ']' (itemChars layout (depth + 1) items)
      exact ⟨body, ']', hbody, by decide⟩
  | obj members =>
      rw [chars]
      obtain ⟨body, hbody⟩ := hclose '\x7b' '\x7d' (memberChars layout (depth + 1) members)
      exact ⟨body, '\x7d', hbody, by decide⟩

/-! ## Both texts of a value -/

/-- A text over several lines and a text in one line that say the same. -/
structure Agree (value : Json) (lines line : String) : Prop where
  /-- The lines end in one line feed. -/
  ending : ∃ body last, lines.toList = body ++ [last, '\n'] ∧ last ≠ '\n'
  /-- What they have more than the one line is spaces and line feeds. -/
  squeezed : squeeze lines.toList = line.toList
  /-- The lines spell the value and no other. -/
  lines_spell : ∀ other : Json, other.Spells lines ↔ other = value
  /-- The one line does so, too. -/
  line_spells : ∀ other : Json, other.Spells line ↔ other = value

theorem toList_indented_append (value : Json) :
    (value.indented ++ "\n").toList = value.chars .indented 0 ++ ['\n'] := by
  rw [String.toList_append, indented, String.toList_ofList]
  rfl

/-- **A value without spaces in its strings says the same in both layouts.** -/
theorem agree_of_spaceless {value : Json} (h : value.Spaceless) :
    value.Agree (value.indented ++ "\n") value.compact where
  ending := by
    obtain ⟨body, last, hbody, hlast⟩ := exists_chars_eq_append .indented 0 value
    refine ⟨body, last, ?_, fun h => hlast (Or.inr (Or.inl h))⟩
    rw [toList_indented_append, hbody, List.append_assoc]
    rfl
  squeezed := by
    rw [toList_indented_append, squeeze_append, squeeze_chars 0 value h, compact,
      String.toList_ofList]
    exact List.append_nil _
  lines_spell := by
    refine spells_iff_of_lex ?_
    rw [toList_indented_append]
    exact lex_chars_append onlyBlanks_indented value
      (List.forall_mem_singleton.mpr (Or.inr (Or.inl rfl)))
  line_spells := spells_iff_of_lex (lex_compact value)

end PerfectKeys.Json
