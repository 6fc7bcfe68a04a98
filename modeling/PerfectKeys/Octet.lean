/-!
# Octets

Names are hashed octet by octet, so this file fixes what an octet is and the few
questions that are asked about one: is it printable, what does it look like with
bit `0x20` cleared, what is its lower-case form, which character does it stand for.

Clearing bit `0x20` forces an ASCII letter to upper case and does the same thing
to every other octet, so it is coarser than ignoring case: digits and `'-'` lose
the bit as well. That is fine for hashing. Names are *compared* with `lower`, which
touches letters only.
-/

namespace PerfectKeys

/-- Eight bits. -/
abbrev Octet := UInt8

namespace Octet

/-- Printable ASCII other than the space. -/
def IsGraphic (o : Octet) : Prop := 0x21 ≤ o ∧ o ≤ 0x7E

instance : DecidablePred IsGraphic := fun o => inferInstanceAs (Decidable (0x21 ≤ o ∧ o ≤ 0x7E))

/-- The octet with bit `0x20` cleared. -/
def clearCaseBit (o : Octet) : Octet := o &&& 0xDF

/-- The octet with an ASCII capital letter made small. -/
def lower (o : Octet) : Octet := if 0x41 ≤ o ∧ o ≤ 0x5A then o + 0x20 else o

/-- The character with the octet's number as code point. -/
def toChar (o : Octet) : Char := Char.ofUInt8 o

/-- The number written with two hexadecimal digits, small letters. -/
def hex (o : Octet) : String :=
  String.ofList [Nat.digitChar (o.toNat / 16), Nat.digitChar (o.toNat % 16)]

end Octet

/-- The octets of a text in UTF-8. -/
def octetsOf (text : String) : List Octet := text.toList.flatMap String.utf8EncodeChar

end PerfectKeys
