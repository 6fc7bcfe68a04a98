import PerfectKeys.Proofs.Delimited
import PerfectKeys.Proofs.Json.Lexing

/-!
# Tokens spell one value only

The tokens of a value can be read off the front of any tokens: the first one tells the kind
of the value, a list or an object goes on with a comma as long as there is another item, and
nothing that stands for an item starts with a comma or a closing bracket. So two values with
the same tokens are equal, and with them two values with the same text.
-/

namespace PerfectKeys.Json

theorem itemTokens_eq_map (items : List Json) : itemTokens items = items.map tokens := by
  induction items with
  | nil => rw [itemTokens]; rfl
  | cons item rest ih => rw [itemTokens, ih]; rfl

/-- The tokens of one member of an object. -/
def memberToTokens (member : String × Json) : List Token :=
  .str member.1 :: .colon :: member.2.tokens

theorem memberTokens_eq_map (members : List (String × Json)) :
    memberTokens members = members.map memberToTokens := by
  induction members with
  | nil => rw [memberTokens]; rfl
  | cons member rest ih => rw [memberTokens, ih]; rfl

theorem commaSeparated_cons (group : List Token) (rest : List (List Token)) :
    commaSeparated (group :: rest) = group ++ rest.flatMap (.comma :: ·) := by
  induction rest generalizing group with
  | nil => exact (List.append_nil group).symm
  | cons other rest ih => rw [commaSeparated.eq_3 _ _ (by simp), ih, List.flatMap_cons]; rfl

section Groups

variable {α : Type} {write : α → List Token} {close : Token}

/-- Groups between commas are read back, up to the bracket that closes them. -/
theorem commaSeparated_inj (hclose : NeverStartsWith write close) (hcomma : .comma ≠ close)
    {l l' : List α} {rest rest' : List Token} (hl : ∀ a ∈ l, ReadsBack write a)
    (h : commaSeparated (l.map write) ++ close :: rest
      = commaSeparated (l'.map write) ++ close :: rest') : l = l' ∧ rest = rest' := by
  cases l with
  | nil =>
      cases l' with
      | nil => exact ⟨rfl, (List.cons.inj h).2⟩
      | cons b l' =>
          rw [List.map_cons, commaSeparated_cons, List.append_assoc] at h
          exact absurd h.symm (hclose.append_ne b _ rest)
  | cons a l =>
      cases l' with
      | nil =>
          rw [List.map_cons, commaSeparated_cons, List.append_assoc] at h
          exact absurd h (hclose.append_ne a _ rest')
      | cons b l' =>
          rw [List.map_cons, List.map_cons, commaSeparated_cons, commaSeparated_cons,
            List.append_assoc, List.append_assoc] at h
          obtain ⟨rfl, htail⟩ := hl a List.mem_cons_self b _ _ h
          rw [List.flatMap_map, List.flatMap_map] at htail
          -- from the second group on, each is written behind its comma
          have hmore : ∀ x ∈ l, ReadsBack (fun x => Token.comma :: write x) x := by
            intro x hx y r r' hxy
            exact hl x (List.mem_cons_of_mem a hx) y r r' (List.cons.inj hxy).2
          obtain ⟨rfl, hrest⟩ :=
            flatMap_append_cons_inj (fun x => ⟨.comma, write x, rfl, hcomma⟩) hmore htail
          exact ⟨rfl, hrest⟩

end Groups

theorem neverStartsWith_closeList : NeverStartsWith tokens .closeList := by
  intro value
  cases value with
  | bool b => exact ⟨.bool b, [], by rw [tokens], by simp⟩
  | num n => exact ⟨.num n, [], by rw [tokens], by simp⟩
  | str s => exact ⟨.str s, [], by rw [tokens], by simp⟩
  | arr items => exact ⟨.openList, _, by rw [tokens]; rfl, by simp⟩
  | obj members => exact ⟨.openObject, _, by rw [tokens]; rfl, by simp⟩

theorem neverStartsWith_closeObject : NeverStartsWith memberToTokens .closeObject := by
  intro member
  exact ⟨.str member.1, _, rfl, by simp⟩

mutual

/-- **The tokens of a value are read back, whatever stands behind them.** -/
theorem readsBack_tokens : ∀ value : Json, ReadsBack tokens value
  | bool _ | num _ | str _ => by
      intro other rest rest' h
      cases other
      all_goals
        simp only [tokens, List.cons_append, List.nil_append] at h
        cases h
      exact ⟨rfl, rfl⟩
  | arr items => by
      intro other rest rest' h
      cases other with
      | arr others =>
          rw [tokens, tokens, itemTokens_eq_map, itemTokens_eq_map, List.append_assoc,
            List.append_assoc] at h
          obtain ⟨rfl, hrest⟩ := commaSeparated_inj neverStartsWith_closeList (by simp)
            (readsBack_items items) (List.cons.inj h).2
          exact ⟨rfl, hrest⟩
      | bool b | num n | str s | obj members =>
          simp only [tokens, List.cons_append, List.nil_append] at h
          cases h
  | obj members => by
      intro other rest rest' h
      cases other with
      | obj others =>
          rw [tokens, tokens, memberTokens_eq_map, memberTokens_eq_map, List.append_assoc,
            List.append_assoc] at h
          obtain ⟨rfl, hrest⟩ := commaSeparated_inj neverStartsWith_closeObject (by simp)
            (readsBack_members members) (List.cons.inj h).2
          exact ⟨rfl, hrest⟩
      | bool b | num n | str s | arr items =>
          simp only [tokens, List.cons_append, List.nil_append] at h
          cases h

theorem readsBack_items : ∀ items : List Json, ∀ item ∈ items, ReadsBack tokens item
  | [] => by
      intro item hitem
      cases hitem
  | first :: rest => by
      intro item hitem
      rcases List.mem_cons.mp hitem with heq | hitem
      · rw [heq]
        exact readsBack_tokens first
      · exact readsBack_items rest item hitem

theorem readsBack_members :
    ∀ members : List (String × Json), ∀ member ∈ members, ReadsBack memberToTokens member
  | [] => by
      intro member hmember
      cases hmember
  | (name, value) :: rest => by
      intro member hmember
      rcases List.mem_cons.mp hmember with heq | hmember
      · rw [heq]
        intro other xs ys h
        obtain ⟨otherName, otherValue⟩ := other
        obtain ⟨hname, h⟩ := List.cons.inj h
        obtain ⟨rfl, hrest⟩ := readsBack_tokens value otherValue xs ys (List.cons.inj h).2
        cases hname
        exact ⟨rfl, hrest⟩
      · exact readsBack_members rest member hmember

end

theorem tokens_inj {value other : Json} (h : value.tokens = other.tokens) : value = other := by
  have happ : value.tokens ++ [] = other.tokens ++ [] := by rw [h]
  exact (readsBack_tokens value other [] [] happ).1

/-- **Values with the same text are equal.** -/
theorem compact_inj {value other : Json} (h : value.compact = other.compact) : value = other := by
  -- equal texts are read as the same tokens
  have hlex := lex_compact value
  rw [h, lex_compact other] at hlex
  exact tokens_inj (Option.some.inj hlex).symm

end PerfectKeys.Json
