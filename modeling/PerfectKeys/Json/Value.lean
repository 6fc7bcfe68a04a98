import PerfectKeys.Json.Quoted

/-!
# JSON values and their text

The values that reports and tables are written as, and one printer for them. What the
compact and the indented form differ in is a `Layout`: what stands before an item of a
list, and between a member's name and its value. Everything else they share, so the two
texts of a value differ in blanks only.
-/

namespace PerfectKeys

/-- A JSON value. The only numbers that are ever written are natural. -/
inductive Json where
  | bool (b : Bool)
  | num (n : Nat)
  | str (s : String)
  | arr (items : List Json)
  /-- An object, with its members in the order they are written. -/
  | obj (members : List (String × Json))

namespace Json

/-- Where blanks go. -/
structure Layout where
  /-- What stands before an item that lies this many lists and objects deep. -/
  newline : Nat → List Char
  /-- What stands between a member's name and its value. -/
  colon : List Char

namespace Layout

/-- No blanks at all. -/
def compact : Layout := ⟨fun _ => [], [':']⟩

/-- Every item on a line of its own, two spaces further in than what it belongs to. -/
def indented : Layout := ⟨fun depth => '\n' :: List.replicate (2 * depth) ' ', [':', ' ']⟩

end Layout

/-- A list or an object at this depth: its items, set apart, between two brackets. -/
def enclose (layout : Layout) (depth : Nat) (opening closing : Char) (items : List (List Char)) :
    List Char :=
  match items with
  | [] => [opening, closing]
  | _ :: _ =>
      opening :: layout.newline (depth + 1)
        ++ List.intercalate (',' :: layout.newline (depth + 1)) items
        ++ layout.newline depth ++ [closing]

mutual

/-- The text of a value that lies this many lists and objects deep. -/
def chars (layout : Layout) (depth : Nat) : Json → List Char
  | bool true => ['t', 'r', 'u', 'e']
  | bool false => ['f', 'a', 'l', 's', 'e']
  | num n => Nat.toDigits 10 n
  | str s => quote s.toList
  | arr items => enclose layout depth '[' ']' (itemChars layout (depth + 1) items)
  | obj members => enclose layout depth '\x7b' '\x7d' (memberChars layout (depth + 1) members)

/-- The texts of the items of a list. -/
def itemChars (layout : Layout) (depth : Nat) : List Json → List (List Char)
  | [] => []
  | item :: rest => chars layout depth item :: itemChars layout depth rest

/-- The texts of the members of an object. -/
def memberChars (layout : Layout) (depth : Nat) : List (String × Json) → List (List Char)
  | [] => []
  | (name, value) :: rest =>
      (quote name.toList ++ layout.colon ++ chars layout depth value)
        :: memberChars layout depth rest

end

/-- The text of a value without blanks. -/
def compact (value : Json) : String := String.ofList (value.chars .compact 0)

/-- The text of a value over indented lines. -/
def indented (value : Json) : String := String.ofList (value.chars .indented 0)

end Json

end PerfectKeys
