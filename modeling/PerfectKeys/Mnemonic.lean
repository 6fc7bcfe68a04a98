import PerfectKeys.Octet

/-!
# Mnemonics

A mnemonic is the textual name of a class, a record type or a similar parameter:
at least one octet, all of them printable ASCII. Both conditions are fields of the
type, so everything that reads the first or the last octet of a name is total.

* `ofOctets` accepts exactly the sequences that satisfy the two conditions, and
  otherwise names the first octet at fault;
* `ofString` is the same question asked of a text's UTF-8 octets.
-/

namespace PerfectKeys

/-- A name that can be hashed. The case of letters is kept as given. -/
structure Mnemonic where
  octets : List Octet
  /-- There is a first and a last octet. -/
  ne_nil : octets ≠ []
  /-- No blanks, no control characters, nothing beyond ASCII. -/
  graphic : ∀ o ∈ octets, o.IsGraphic
  deriving DecidableEq

/-- Why a sequence of octets is not a mnemonic. -/
inductive MnemonicError where
  /-- There is no octet at all. -/
  | empty
  /-- The octet at this position, the first such, is not printable. -/
  | illegalOctet (octet : Octet) (index : Nat)
  deriving DecidableEq

namespace MnemonicError

/-- The error in words. -/
def message : MnemonicError → String
  | empty => "empty mnemonic"
  | illegalOctet octet index => s!"illegal octet 0x{octet.hex} at position {index} in mnemonic"

end MnemonicError

namespace Mnemonic

/-- The first octet that is not printable, with its position. -/
def firstIllegal (octets : List Octet) : Option (Octet × Nat) :=
  octets.zipIdx.find? (fun p => ¬ p.1.IsGraphic)

theorem graphic_of_firstIllegal_eq_none {octets : List Octet} (h : firstIllegal octets = none) :
    ∀ o ∈ octets, o.IsGraphic := by
  intro o ho
  obtain ⟨i, hi, rfl⟩ := List.getElem_of_mem ho
  have := List.find?_eq_none.mp h (octets[i], i) (by simp [List.mem_zipIdx_iff_getElem?])
  simpa using this

/-- The mnemonic with the given octets. -/
def ofOctets (octets : List Octet) : Except MnemonicError Mnemonic :=
  if ne_nil : octets = [] then
    .error .empty
  else
    match h : firstIllegal octets with
    | some (octet, index) => .error (.illegalOctet octet index)
    | none => .ok ⟨octets, ne_nil, graphic_of_firstIllegal_eq_none h⟩

/-- A mnemonic is accepted again, and unchanged. -/
theorem ofOctets_octets (m : Mnemonic) : ofOctets m.octets = .ok m := by
  obtain ⟨octets, hne, hg⟩ := m
  have hnone : firstIllegal octets = none := by
    unfold firstIllegal
    rw [List.find?_eq_none]
    rintro ⟨o, i⟩ hp
    have := hg o (List.fst_mem_of_mem_zipIdx hp)
    simpa using this
  unfold ofOctets
  rw [dif_neg hne]
  split
  · next h => rw [hnone] at h; cases h
  · rfl

/-- The mnemonic a text spells. -/
def ofString (text : String) : Except MnemonicError Mnemonic := ofOctets (octetsOf text)

/-- The first octet. -/
def first (m : Mnemonic) : Octet := m.octets.head m.ne_nil

/-- The last octet. -/
def last (m : Mnemonic) : Octet := m.octets.getLast m.ne_nil

/-- How many octets there are. -/
def length (m : Mnemonic) : Nat := m.octets.length

/-- The characters of the name. -/
def chars (m : Mnemonic) : List Char := m.octets.map Octet.toChar

/-- The name as a text. -/
def text (m : Mnemonic) : String := String.ofList m.chars

instance : ToString Mnemonic := ⟨text⟩

/-- A name comes before another when its octets do, compared from the left. -/
instance : LE Mnemonic := ⟨fun a b => a.octets ≤ b.octets⟩

instance : DecidableLE Mnemonic := fun a b => inferInstanceAs (Decidable (a.octets ≤ b.octets))

/-- A double quote and a backslash are written with a backslash before them. -/
def guardChar (c : Char) : List Char := if c = '"' ∨ c = '\\' then ['\\', c] else [c]

/-- The name between double quotes. -/
def quoted (m : Mnemonic) : String :=
  String.ofList ('"' :: m.chars.flatMap guardChar ++ ['"'])

/-- The name as it appears in diagnostics. -/
def inspect (m : Mnemonic) : String := s!"Mnemonic({m.quoted})"

end Mnemonic

end PerfectKeys
