import Mathlib.Data.List.Nodup
import PerfectKeys.Proofs.Json.Grammar
import PerfectKeys.Proofs.Json.Unambiguous
import PerfectKeys.Proofs.Spelling
import PerfectKeys.Tool.InputFile

/-!
# Which files are accepted

A file holds one value of a few forms. `Form` lists them, as values, so that nothing needs to
be said about blanks, escapes or the order in which a text is read: a file is accepted when its
text spells such a value, and what it holds is what the value says.

The reader works on tokens without building a value. Each of its parts is shown to accept the
tokens of one kind of value with anything behind them.
-/

namespace PerfectKeys

open Json (Token Spelled)

namespace NameLists

/-! ## The values that files hold -/

/-- A list of strings, as a value. -/
def listOf (strings : List String) : Json := .arr (strings.map .str)

/-- The name of the member that holds the items of a role. -/
def memberName : Role → String
  | .zoneClass => "classes"
  | .recordType => "types"

/-- An object with lists of strings as members. -/
def objectOf (members : List (Role × List String)) : Json :=
  .obj (members.map fun m => (memberName m.1, listOf m.2))

/-- The lists of an object. A member that is left out is empty. -/
def ofMembers (members : List (Role × List String)) : NameLists :=
  ⟨(members.lookup .zoneClass).getD [], (members.lookup .recordType).getD []⟩

/-- The classes and the types, in this order. What is left out is empty. -/
def ofParts (parts : List (List String)) : NameLists :=
  ⟨parts[0]?.getD [], parts[1]?.getD []⟩

/-- The values that files hold, and the lists they stand for. -/
inductive Form : Json → NameLists → Prop where
  | object {members : List (Role × List String)} :
      (members.map Prod.fst).Nodup → Form (objectOf members) (ofMembers members)
  | list {parts : List (List String)} :
      parts.length ≤ 2 → Form (.arr (parts.map listOf)) (ofParts parts)

/-! ## The parts of the reader -/

theorem moreStrings?_eq_some_iff {tokens rest : List Token} {more : List String} :
    moreStrings? tokens = some (more, rest) ↔
      tokens = more.flatMap (fun s => [Token.comma, .str s]) ++ .closeList :: rest := by
  constructor
  · intro h
    induction tokens using moreStrings?.induct generalizing more with
    | case1 tail =>
        rw [moreStrings?.eq_1] at h
        cases h
        rfl
    | case2 s tail ih =>
        rw [moreStrings?.eq_2] at h
        obtain ⟨⟨more, rest'⟩, hmore, heq⟩ := Option.map_eq_some_iff.mp h
        cases heq
        rw [ih hmore]
        rfl
    | case3 tokens hclose hcomma =>
        rw [moreStrings?.eq_3 tokens hclose hcomma] at h
        cases h
  · rintro rfl
    induction more with
    | nil => rfl
    | cons s more ih =>
        rw [List.flatMap_cons, List.append_assoc]
        show (moreStrings? (more.flatMap _ ++ .closeList :: rest)).map _ = _
        rw [ih]
        rfl

theorem tokens_listOf_nil : (listOf []).tokens = [.openList, .closeList] := by
  rw [listOf, Json.tokens]
  rfl

theorem tokens_listOf_cons (s : String) (more : List String) :
    (listOf (s :: more)).tokens =
      .openList :: .str s :: (more.flatMap (fun s => [Token.comma, .str s]) ++ [.closeList]) := by
  have hstr (s : String) : (Json.str s).tokens = [.str s] := by rw [Json.tokens]
  rw [listOf, Json.tokens, Json.itemTokens_eq_map, List.map_cons, List.map_cons,
    Json.commaSeparated_cons, List.flatMap_map, List.flatMap_map, hstr]
  simp only [hstr]
  rfl

theorem strings?_eq_some_iff {tokens rest : List Token} {strings : List String} :
    strings? tokens = some (strings, rest) ↔ tokens = (listOf strings).tokens ++ rest := by
  constructor
  · intro h
    unfold strings? at h
    split at h
    · cases h
      rw [tokens_listOf_nil]
      rfl
    · obtain ⟨⟨more, rest'⟩, hmore, heq⟩ := Option.map_eq_some_iff.mp h
      cases heq
      rw [moreStrings?_eq_some_iff.mp hmore, tokens_listOf_cons]
      simp only [List.cons_append, List.append_assoc, List.nil_append]
    · cases h
  · rintro rfl
    cases strings with
    | nil => rw [tokens_listOf_nil]; rfl
    | cons s more =>
        rw [tokens_listOf_cons]
        simp only [List.cons_append, List.append_assoc, List.nil_append]
        show (moreStrings? _).map _ = _
        rw [moreStrings?_eq_some_iff.mpr rfl]
        rfl

theorem memberRole?_eq_some_iff {name : String} {role : Role} :
    memberRole? name = some role ↔ name = memberName role := by
  constructor
  · intro h
    unfold memberRole? at h
    split at h
    all_goals
      cases h
      try rfl
  · rintro rfl
    cases role with
    | zoneClass => rfl
    | recordType => rfl

/-- The tokens of a member of an object. -/
def memberTokens (member : Role × List String) : List Token :=
  .str (memberName member.1) :: .colon :: (listOf member.2).tokens

theorem member?_eq_some_iff {tokens rest : List Token} {member : Role × List String} :
    member? tokens = some (member, rest) ↔ tokens = memberTokens member ++ rest := by
  constructor
  · intro h
    unfold member? at h
    split at h
    · obtain ⟨role, hrole, h⟩ := Option.bind_eq_some_iff.mp h
      obtain ⟨⟨strings, rest'⟩, hstrings, heq⟩ := Option.bind_eq_some_iff.mp h
      cases heq
      rw [memberRole?_eq_some_iff.mp hrole, strings?_eq_some_iff.mp hstrings]
      rfl
    · cases h
  · rintro rfl
    show ((memberRole? (memberName member.1)).bind fun role =>
      (strings? ((listOf member.2).tokens ++ rest)).bind _) = _
    rw [memberRole?_eq_some_iff.mpr rfl, strings?_eq_some_iff.mpr rfl]
    rfl

/-! ## The two forms -/

theorem tokens_objectOf (members : List (Role × List String)) :
    (objectOf members).tokens =
      .openObject :: Json.commaSeparated (members.map memberTokens) ++ [.closeObject] := by
  rw [objectOf, Json.tokens, Json.memberTokens_eq_map, List.map_map]
  rfl

theorem tokens_arr_listOf (parts : List (List String)) :
    (Json.arr (parts.map listOf)).tokens =
      .openList :: Json.commaSeparated (parts.map fun l => (listOf l).tokens) ++ [.closeList] := by
  rw [Json.tokens, Json.itemTokens_eq_map, List.map_map]
  rfl

theorem both?_eq_some_iff {one other : Role × List String} {lists : NameLists} :
    both? one other = some lists ↔ one.1 ≠ other.1 ∧ lists = ofMembers [one, other] := by
  obtain ⟨role, strings⟩ := one
  obtain ⟨role', strings'⟩ := other
  have hequal {l : NameLists} : some l = some lists ↔ lists = l :=
    ⟨fun h => (Option.some.inj h).symm, fun h => congrArg some h.symm⟩
  cases role with
  | zoneClass =>
      cases role' with
      | zoneClass => exact ⟨fun h => (nomatch h), fun h => absurd rfl h.1⟩
      | recordType => exact hequal.trans (and_iff_right fun h => nomatch h).symm
  | recordType =>
      cases role' with
      | zoneClass => exact hequal.trans (and_iff_right fun h => nomatch h).symm
      | recordType => exact ⟨fun h => (nomatch h), fun h => absurd rfl h.1⟩

theorem ofObject?_one (one : Role × List String) :
    ofObject? (memberTokens one ++ [.closeObject]) = some (ofMembers [one]) := by
  unfold ofObject?
  rw [if_neg (fun h => nomatch h), member?_eq_some_iff.mpr rfl]
  obtain ⟨role, strings⟩ := one
  cases role with
  | zoneClass => rfl
  | recordType => rfl

theorem ofObject?_two {one other : Role × List String} (h : one.1 ≠ other.1) :
    ofObject? (memberTokens one ++ .comma :: (memberTokens other ++ [.closeObject])) =
      some (ofMembers [one, other]) := by
  unfold ofObject?
  rw [if_neg (fun h => nomatch h), member?_eq_some_iff.mpr rfl]
  show ((member? (memberTokens other ++ [.closeObject])).bind fun p =>
    if p.2 = [.closeObject] then both? one p.1 else none) = _
  rw [member?_eq_some_iff.mpr rfl]
  exact both?_eq_some_iff.mpr ⟨h, rfl⟩

theorem ofObject?_eq_some_iff {tokens : List Token} {lists : NameLists} :
    ofObject? tokens = some lists ↔ ∃ members : List (Role × List String),
      (members.map Prod.fst).Nodup ∧ .openObject :: tokens = (objectOf members).tokens ∧
        lists = ofMembers members := by
  constructor
  · intro h
    have horiginal := h
    unfold ofObject? at h
    split_ifs at h with hempty
    · cases h
      exact ⟨[], .nil, by rw [hempty, tokens_objectOf]; rfl, rfl⟩
    · obtain ⟨⟨one, rest⟩, hone, hmore⟩ := Option.bind_eq_some_iff.mp h
      obtain rfl := member?_eq_some_iff.mp hone
      dsimp only at hmore
      split at hmore
      · rw [ofObject?_one one] at horiginal
        cases horiginal
        exact ⟨[one], by simp, by rw [tokens_objectOf]; rfl, rfl⟩
      · obtain ⟨⟨other, rest⟩, hother, hlists⟩ := Option.bind_eq_some_iff.mp hmore
        obtain rfl := member?_eq_some_iff.mp hother
        dsimp only at hlists
        split_ifs at hlists with hrest
        obtain ⟨hne, rfl⟩ := both?_eq_some_iff.mp hlists
        refine ⟨[one, other], by simpa using hne, ?_, rfl⟩
        rw [hrest, tokens_objectOf]
        simp [Json.commaSeparated]
      · cases hmore
  · rintro ⟨members, hnodup, htokens, rfl⟩
    rw [tokens_objectOf] at htokens
    obtain rfl := (List.cons.inj htokens).2
    rcases members with _ | ⟨one, _ | ⟨other, _ | ⟨third, more⟩⟩⟩
    · rfl
    · exact ofObject?_one one
    · have hne : one.1 ≠ other.1 := by simpa using hnodup
      have h := ofObject?_two hne
      simpa [Json.commaSeparated] using h
    · -- there are but two roles
      simp only [List.map_cons, List.nodup_cons, List.mem_cons, not_or] at hnodup
      obtain ⟨⟨h12, h13, -⟩, ⟨h23, -⟩, -⟩ := hnodup
      cases hone : one.1 <;> cases hother : other.1 <;> cases hthird : third.1 <;> simp_all

theorem ofList?_one (classes : List String) :
    ofList? ((listOf classes).tokens ++ [.closeList]) = some (ofParts [classes]) := by
  have hne : (listOf classes).tokens ++ [.closeList] ≠ [.closeList] := by
    rw [listOf, Json.tokens]
    exact fun h => nomatch h
  unfold ofList?
  rw [if_neg hne, strings?_eq_some_iff.mpr rfl]
  rfl

theorem ofList?_two (classes types : List String) :
    ofList? ((listOf classes).tokens ++ .comma :: ((listOf types).tokens ++ [.closeList])) =
      some (ofParts [classes, types]) := by
  have hne : (listOf classes).tokens ++ .comma :: ((listOf types).tokens ++ [.closeList]) ≠
      [.closeList] := by
    rw [listOf, Json.tokens]
    exact fun h => nomatch h
  unfold ofList?
  rw [if_neg hne, strings?_eq_some_iff.mpr rfl]
  show ((strings? ((listOf types).tokens ++ [.closeList])).bind fun p =>
    if p.2 = [.closeList] then some (ofParts [classes, p.1]) else none) = _
  rw [strings?_eq_some_iff.mpr rfl]
  rfl

theorem ofList?_eq_some_iff {tokens : List Token} {lists : NameLists} :
    ofList? tokens = some lists ↔ ∃ parts : List (List String),
      parts.length ≤ 2 ∧ .openList :: tokens = (Json.arr (parts.map listOf)).tokens ∧
        lists = ofParts parts := by
  constructor
  · intro h
    unfold ofList? at h
    split_ifs at h with hempty
    · cases h
      exact ⟨[], by simp, by rw [hempty, tokens_arr_listOf]; rfl, rfl⟩
    · obtain ⟨⟨classes, rest⟩, hclasses, hmore⟩ := Option.bind_eq_some_iff.mp h
      obtain rfl := strings?_eq_some_iff.mp hclasses
      dsimp only at hmore
      split at hmore
      · cases hmore
        exact ⟨[classes], by simp, by rw [tokens_arr_listOf]; rfl, rfl⟩
      · obtain ⟨⟨types, rest⟩, htypes, hlists⟩ := Option.bind_eq_some_iff.mp hmore
        obtain rfl := strings?_eq_some_iff.mp htypes
        dsimp only at hlists
        split_ifs at hlists with hrest
        cases hlists
        refine ⟨[classes, types], by simp, ?_, rfl⟩
        rw [hrest, tokens_arr_listOf]
        simp [Json.commaSeparated]
      · cases hmore
  · rintro ⟨parts, hlength, htokens, rfl⟩
    rw [tokens_arr_listOf] at htokens
    obtain rfl := (List.cons.inj htokens).2
    rcases parts with _ | ⟨classes, _ | ⟨types, _ | ⟨third, more⟩⟩⟩
    · rfl
    · exact ofList?_one classes
    · have h := ofList?_two classes types
      simpa [Json.commaSeparated] using h
    · simp at hlength

/-- **The tokens that are accepted spell one of the values that files hold.** -/
theorem ofTokens?_eq_some_iff {tokens : List Token} {lists : NameLists} :
    ofTokens? tokens = some lists ↔ ∃ value : Json, tokens = value.tokens ∧ Form value lists := by
  constructor
  · intro h
    unfold ofTokens? at h
    split at h
    · obtain ⟨members, hnodup, htokens, rfl⟩ := ofObject?_eq_some_iff.mp h
      exact ⟨_, htokens, .object hnodup⟩
    · obtain ⟨parts, hlength, htokens, rfl⟩ := ofList?_eq_some_iff.mp h
      exact ⟨_, htokens, .list hlength⟩
    · cases h
  · rintro ⟨value, rfl, hform⟩
    cases hform with
    | @object members hnodup =>
        rw [tokens_objectOf]
        exact ofObject?_eq_some_iff.mpr ⟨members, hnodup, (tokens_objectOf members).symm, rfl⟩
    | @list parts hlength =>
        rw [tokens_arr_listOf]
        exact ofList?_eq_some_iff.mpr ⟨parts, hlength, (tokens_arr_listOf parts).symm, rfl⟩

/-! ## Octets -/

/-- **A file is accepted when its text spells one of the values that files hold.** -/
theorem ofOctets?_eq_some_iff {octets : List Octet} {lists : NameLists} :
    ofOctets? octets = some lists ↔ ∃ (text : String) (value : Json),
      octets = octetsOf text ∧ Spelled value.tokens text.toList ∧ Form value lists := by
  unfold ofOctets?
  simp only [Option.bind_eq_bind, Option.bind_eq_some_iff, fromUTF8?_eq_some_iff,
    Json.lex_eq_some_iff, ofTokens?_eq_some_iff]
  constructor
  · rintro ⟨text, htext, tokens, hspelled, value, rfl, hform⟩
    exact ⟨text, value, htext, hspelled, hform⟩
  · rintro ⟨text, value, htext, hspelled, hform⟩
    exact ⟨text, htext, value.tokens, hspelled, value, rfl, hform⟩

/-! ## What no file holds -/

theorem isPlain_of_mem_commaSeparated {groups : List (List Token)}
    (h : ∀ group ∈ groups, ∀ t ∈ group, t.IsPlain) :
    ∀ t ∈ Json.commaSeparated groups, t.IsPlain := by
  intro t ht
  cases groups with
  | nil => cases ht
  | cons group rest =>
      rw [Json.commaSeparated_cons, List.mem_append, List.mem_flatMap] at ht
      rcases ht with ht | ⟨other, hother, ht⟩
      · exact h group List.mem_cons_self t ht
      · rcases List.mem_cons.mp ht with rfl | ht
        · trivial
        · exact h other (List.mem_cons_of_mem group hother) t ht

theorem isPlain_of_mem_enclose {first last : Token} {groups : List (List Token)}
    (hfirst : first.IsPlain) (hlast : last.IsPlain)
    (h : ∀ group ∈ groups, ∀ t ∈ group, t.IsPlain) :
    ∀ t ∈ first :: Json.commaSeparated groups ++ [last], t.IsPlain := by
  intro t ht
  rw [List.cons_append, List.mem_cons, List.mem_append, List.mem_singleton] at ht
  rcases ht with rfl | ht | rfl
  · exact hfirst
  · exact isPlain_of_mem_commaSeparated h t ht
  · exact hlast

theorem isPlain_of_mem_listOf (strings : List String) :
    ∀ t ∈ (listOf strings).tokens, t.IsPlain := by
  rw [listOf, Json.tokens, Json.itemTokens_eq_map, List.map_map]
  refine isPlain_of_mem_enclose trivial trivial fun group hgroup t ht => ?_
  obtain ⟨s, -, rfl⟩ := List.mem_map.mp hgroup
  rw [Function.comp_apply, Json.tokens, List.mem_singleton] at ht
  rw [ht]
  trivial

/-- Files hold neither numbers nor truth values. -/
theorem Form.isPlain {value : Json} {lists : NameLists} (h : Form value lists) :
    ∀ t ∈ value.tokens, t.IsPlain := by
  cases h with
  | object _ =>
      rw [tokens_objectOf]
      refine isPlain_of_mem_enclose trivial trivial fun group hgroup t ht => ?_
      obtain ⟨member, -, rfl⟩ := List.mem_map.mp hgroup
      rcases List.mem_cons.mp ht with rfl | ht
      · trivial
      · rcases List.mem_cons.mp ht with rfl | ht
        · trivial
        · exact isPlain_of_mem_listOf member.2 t ht
  | list _ =>
      rw [tokens_arr_listOf]
      refine isPlain_of_mem_enclose trivial trivial fun group hgroup t ht => ?_
      obtain ⟨strings, -, rfl⟩ := List.mem_map.mp hgroup
      exact isPlain_of_mem_listOf strings t ht

/-- Texts with something in them that no file has. Where a text goes wrong before its end, it
may go on in any way. -/
inductive Flawed : List Char → Prop where
  | unknownMember {text : List Char} {members : List (String × Json)} {member : String × Json} :
      Spelled (Json.obj members).tokens text → member ∈ members →
      (∀ role, member.1 ≠ memberName role) → Flawed text
  | repeatedMember {text : List Char} {members : List (String × Json)} :
      Spelled (Json.obj members).tokens text → ¬ (members.map Prod.fst).Nodup → Flawed text
  | thirdElement {text : List Char} {items : List Json} :
      Spelled (Json.arr items).tokens text → 2 < items.length → Flawed text
  /-- Null, truth values, numbers, and whatever else starts neither a string nor a sign. -/
  | foreign {before after : List Char} {tokens : List Token} {c : Char} :
      Spelled tokens before → ¬ Json.IsBlank c → ¬ Json.StartsPlain c →
      Flawed (before ++ c :: after)
  | trailingComma {before after : List Char} {tokens : List Token} {close : Token} :
      Spelled (tokens ++ [.comma, close]) before →
      close = .closeList ∨ close = .closeObject → Flawed (before ++ after)
  | control {before body chars after : List Char} {tokens : List Token} {c : Char} :
      Spelled tokens before → Json.Body body chars → c.toNat < 0x20 →
      Flawed (before ++ '"' :: (body ++ c :: after))
  /-- A leading surrogate that no trailing one follows. -/
  | loneLeading {before body chars escape after : List Char} {tokens : List Token} {k : Nat} :
      Spelled tokens before → Json.Body body chars →
      k < 0x400 → Json.UnitEscape (0xD800 + k) escape →
      (∀ l trailing tail, l < 0x400 → Json.UnitEscape (0xDC00 + l) trailing →
        after ≠ trailing ++ tail) →
      Flawed (before ++ '"' :: (body ++ (escape ++ after)))
  /-- A trailing surrogate that no leading one precedes. -/
  | loneTrailing {before body chars escape after : List Char} {tokens : List Token} {l : Nat} :
      Spelled tokens before → Json.Body body chars →
      l < 0x400 → Json.UnitEscape (0xDC00 + l) escape →
      Flawed (before ++ '"' :: (body ++ (escape ++ after)))
  /-- Something behind a whole value. -/
  | trailingText {before after : List Char} {value : Json} {c : Char} :
      Spelled value.tokens before → c ∈ after → ¬ Json.IsBlank c → Flawed (before ++ after)

section Flawed

variable {text : List Char} {value : Json} {lists : NameLists}

theorem memberName_injective : Function.Injective memberName := by
  intro a b h
  exact Option.some.inj ((memberRole?_eq_some_iff.mpr rfl).symm.trans
    (memberRole?_eq_some_iff.mpr h))

theorem form_obj {members : List (String × Json)} (h : Form (.obj members) lists) :
    (members.map Prod.fst).Nodup ∧ ∀ m ∈ members, ∃ role, m.1 = memberName role := by
  generalize heq : Json.obj members = whole at h
  cases h with
  | @object named hnodup =>
      cases heq
      have hnames : (named.map fun m => (memberName m.1, listOf m.2)).map Prod.fst =
          (named.map Prod.fst).map memberName := by
        rw [List.map_map, List.map_map]
        rfl
      refine ⟨?_, fun m hm => ?_⟩
      · rw [hnames]
        exact List.Nodup.map memberName_injective hnodup
      · obtain ⟨member, -, rfl⟩ := List.mem_map.mp hm
        exact ⟨member.1, rfl⟩
  | list _ => cases heq

theorem length_le_of_form_arr {items : List Json} (h : Form (.arr items) lists) :
    items.length ≤ 2 := by
  generalize heq : Json.arr items = whole at h
  cases h with
  | object _ => cases heq
  | list hlength =>
      cases heq
      rwa [List.length_map]

theorem not_form_of_flawed (h : Flawed text) (hvalue : Spelled value.tokens text) :
    ¬ Form value lists := by
  intro hform
  have hlex := Json.lex_eq_some_iff.mpr hvalue
  -- a text spells one value only
  have hunique {other : Json} (hother : Spelled other.tokens text) : other = value := by
    have h := Json.lex_eq_some_iff.mpr hother
    rw [hlex] at h
    exact Json.tokens_inj (Option.some.inj h).symm
  cases h with
  | @unknownMember _ members member hspelled hmem hunknown =>
      obtain rfl := hunique hspelled
      obtain ⟨role, hrole⟩ := (form_obj hform).2 member hmem
      exact hunknown role hrole
  | repeatedMember hspelled hrepeated =>
      obtain rfl := hunique hspelled
      exact hrepeated (form_obj hform).1
  | thirdElement hspelled hlength =>
      obtain rfl := hunique hspelled
      exact Nat.not_lt.mpr (length_le_of_form_arr hform) hlength
  | foreign hbefore hblank hstart =>
      obtain ⟨others, hothers, htokens⟩ := hbefore.exists_more hlex hform.isPlain
      refine hstart (Json.startsPlain_of_lex hblank hothers fun t ht => hform.isPlain t ?_)
      rw [htokens]
      exact List.mem_append_right _ ht
  | @trailingComma before after tokens close hbefore hclose =>
      obtain ⟨others, -, htokens⟩ := hbefore.exists_more hlex hform.isPlain
      rw [List.append_assoc] at htokens
      exact Json.tokens_ne_trailing_comma value hclose tokens others htokens
  | control hbefore hbody hcontrol =>
      obtain ⟨others, hothers, -⟩ := hbefore.exists_more hlex hform.isPlain
      rw [Json.lex_string_eq_none hbody (Json.unquote_control hcontrol _)] at hothers
      cases hothers
  | loneLeading hbefore hbody hk hescape hlone =>
      obtain ⟨others, hothers, -⟩ := hbefore.exists_more hlex hform.isPlain
      rw [Json.lex_string_eq_none hbody (Json.unquote_leading hk hescape hlone)] at hothers
      cases hothers
  | loneTrailing hbefore hbody hl hescape =>
      obtain ⟨others, hothers, -⟩ := hbefore.exists_more hlex hform.isPlain
      rw [Json.lex_string_eq_none hbody (Json.unquote_trailing hl hescape _)] at hothers
      cases hothers
  | @trailingText before after other c hbefore hmem hblank =>
      obtain ⟨others, hothers, htokens⟩ := hbefore.exists_more hlex hform.isPlain
      have hread := Json.readsBack_tokens other value others []
      rw [List.append_nil] at hread
      obtain ⟨-, rfl⟩ := hread htokens.symm
      exact hblank ((Json.lex_eq_some_iff.mp hothers).isBlank rfl c hmem)

end Flawed

/-- Every text of the value is read as these lists, and there is one. -/
def Loads (value : Json) (lists : NameLists) : Prop :=
  ofOctets? (octetsOf value.compact) = some lists ∧
    ∀ text : String, Spelled value.tokens text.toList → ofOctets? (octetsOf text) = some lists

theorem loads_of_form {value : Json} {lists : NameLists} (h : Form value lists) :
    Loads value lists := by
  have hall (text : String) (htext : Spelled value.tokens text.toList) :
      ofOctets? (octetsOf text) = some lists :=
    ofOctets?_eq_some_iff.mpr ⟨text, value, rfl, htext, h⟩
  exact ⟨hall _ (Json.spelled_compact value), hall⟩

/-- **Files of exactly one format are accepted**: those whose text spells a value of one of
the forms, with blanks and escapes as the grammar allows them. Both lists may be given in
either form, and an empty one left out wherever it can be; texts in no character encoding and
flawed ones are refused. -/
theorem accepted_iff_form :
    (∀ octets lists, ofOctets? octets = some lists ↔ ∃ (text : String) (value : Json),
      octets = octetsOf text ∧ Spelled value.tokens text.toList ∧ Form value lists) ∧
    (∀ classes types,
      Loads (.obj [("classes", listOf classes), ("types", listOf types)]) ⟨classes, types⟩ ∧
      Loads (.obj [("types", listOf types), ("classes", listOf classes)]) ⟨classes, types⟩ ∧
      Loads (.arr [listOf classes, listOf types]) ⟨classes, types⟩ ∧
      Loads (.obj [("classes", listOf classes)]) ⟨classes, []⟩ ∧
      Loads (.arr [listOf classes]) ⟨classes, []⟩ ∧
      Loads (.obj [("types", listOf types)]) ⟨[], types⟩) ∧
    Loads (.obj []) ⟨[], []⟩ ∧ Loads (.arr []) ⟨[], []⟩ ∧
    (∀ octets, (∀ text, octets ≠ octetsOf text) → ofOctets? octets = none) ∧
    ∀ text : String, Flawed text.toList → ofOctets? (octetsOf text) = none := by
  have hobject (members : List (Role × List String)) (h : (members.map Prod.fst).Nodup) :
      Loads (objectOf members) (ofMembers members) := loads_of_form (.object h)
  have hlist (parts : List (List String)) (h : parts.length ≤ 2) :
      Loads (.arr (parts.map listOf)) (ofParts parts) := loads_of_form (.list h)
  refine ⟨fun _ _ => ofOctets?_eq_some_iff, fun classes types => ?_, hobject [] .nil,
    hlist [] (Nat.zero_le 2), ?_, ?_⟩
  · exact ⟨hobject [(.zoneClass, classes), (.recordType, types)] (by simp),
      hobject [(.recordType, types), (.zoneClass, classes)] (by simp),
      hlist [classes, types] (by simp), hobject [(.zoneClass, classes)] (by simp),
      hlist [classes] (by simp), hobject [(.recordType, types)] (by simp)⟩
  · intro octets hoctets
    cases h : ofOctets? octets with
    | none => rfl
    | some lists =>
        obtain ⟨text, -, htext, -⟩ := ofOctets?_eq_some_iff.mp h
        exact absurd htext (hoctets text)
  · intro text hflawed
    cases h : ofOctets? (octetsOf text) with
    | none => rfl
    | some lists =>
        obtain ⟨other, value, hother, hspelled, hform⟩ := ofOctets?_eq_some_iff.mp h
        rw [← octetsOf_injective hother] at hspelled
        exact absurd hform (not_form_of_flawed hflawed hspelled)

/-- The text is `[[],]`. -/
theorem accepted_iff_form_trailing_comma :
    Flawed (String.ofList ['[', '[', ']', ',', ']']).toList ∧
      ofOctets? (octetsOf (String.ofList ['[', '[', ']', ',', ']'])) = none := by
  have hspelled : Spelled ([.openList, .openList, .closeList] ++ [.comma, .closeList])
      ['[', '[', ']', ',', ']'] :=
    .sign (by decide) (.sign (by decide) (.sign (by decide) (.sign (by decide)
      (.sign (by decide) .nil))))
  have hflawed : Flawed (String.ofList ['[', '[', ']', ',', ']']).toList := by
    rw [String.toList_ofList, ← List.append_nil ['[', '[', ']', ',', ']']]
    exact .trailingComma hspelled (.inl rfl)
  exact ⟨hflawed, accepted_iff_form.2.2.2.2.2 _ hflawed⟩

end NameLists

end PerfectKeys
