import PerfectKeys.Json.Token
import PerfectKeys.NameLists

/-!
# The input file

Classes and types to derive keys for can be given in a JSON file, in one of two forms:

* an object with the members `classes` and `types`, each of them optional and in either
  order;
* a list of up to two lists, the classes and then the types.

The lists hold strings, nothing else is accepted, and what is left out is empty. Neither
form is nested any deeper, so both are read straight off the tokens.
-/

namespace PerfectKeys

open Json (Token)

namespace NameLists

/-- The strings of a list behind its first one, and what follows the list. -/
def moreStrings? : List Token → Option (List String × List Token)
  | .closeList :: rest => some ([], rest)
  | .comma :: .str s :: rest => (moreStrings? rest).map fun (more, rest) => (s :: more, rest)
  | _ => none

/-- The strings of a list at the start of a text, and what follows the list. -/
def strings? : List Token → Option (List String × List Token)
  | .openList :: .closeList :: rest => some ([], rest)
  | .openList :: .str s :: rest => (moreStrings? rest).map fun (more, rest) => (s :: more, rest)
  | _ => none

/-- What the strings of a member name. -/
def memberRole? : String → Option Role
  | "classes" => some .zoneClass
  | "types" => some .recordType
  | _ => none

/-- A member of an object at the start of a text, and what follows it. -/
def member? : List Token → Option ((Role × List String) × List Token)
  | .str name :: .colon :: rest => do
      let role ← memberRole? name
      let (strings, rest) ← strings? rest
      return ((role, strings), rest)
  | _ => none

/-- The lists under one role. -/
def single : Role × List String → NameLists
  | (.zoneClass, strings) => ⟨strings, []⟩
  | (.recordType, strings) => ⟨[], strings⟩

/-- The lists under two roles, which have to differ. -/
def both? : Role × List String → Role × List String → Option NameLists
  | (.zoneClass, classes), (.recordType, types) => some ⟨classes, types⟩
  | (.recordType, types), (.zoneClass, classes) => some ⟨classes, types⟩
  | _, _ => none

/-- The object form, behind its opening brace. -/
def ofObject? (tokens : List Token) : Option NameLists :=
  if tokens = [.closeObject] then some ⟨[], []⟩
  else do
    let (one, rest) ← member? tokens
    match rest with
    | [.closeObject] => return single one
    | .comma :: rest =>
        let (other, rest) ← member? rest
        if rest = [.closeObject] then both? one other else none
    | _ => none

/-- The list form, behind its opening bracket. -/
def ofList? (tokens : List Token) : Option NameLists :=
  if tokens = [.closeList] then some ⟨[], []⟩
  else do
    let (classes, rest) ← strings? tokens
    match rest with
    | [.closeList] => return ⟨classes, []⟩
    | .comma :: rest =>
        let (types, rest) ← strings? rest
        if rest = [.closeList] then return ⟨classes, types⟩ else none
    | _ => none

/-- The lists that the tokens of a text spell. -/
def ofTokens? : List Token → Option NameLists
  | .openObject :: rest => ofObject? rest
  | .openList :: rest => ofList? rest
  | _ => none

/-- The lists that a file with these octets holds. -/
def ofOctets? (octets : List Octet) : Option NameLists := do
  let text ← String.fromUTF8? ⟨octets.toArray⟩
  let tokens ← Json.lex text.toList
  ofTokens? tokens

end NameLists

end PerfectKeys
