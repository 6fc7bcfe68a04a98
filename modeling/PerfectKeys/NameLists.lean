import PerfectKeys.Report

/-!
# Lists of names

What a run of key derivation is given: classes and types, by name. They are handled as one
sequence of items, the classes before the types.
-/

namespace PerfectKeys

/-- Texts that all name the same kind of thing. -/
def Role.each (role : Role) (texts : List String) : List (Role × String) := texts.map (role, ·)

/-- Classes and types by name. -/
structure NameLists where
  classes : List String
  types : List String
  deriving DecidableEq

/-- The classes followed by the types. -/
def NameLists.items (l : NameLists) : List (Role × String) :=
  Role.zoneClass.each l.classes ++ Role.recordType.each l.types

end PerfectKeys
