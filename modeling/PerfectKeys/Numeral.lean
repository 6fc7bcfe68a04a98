/-!
# Numerals

Numbers in arguments and settings are written in decimal digits. Leading zeros and one plus
sign before the digits change nothing.
-/

namespace PerfectKeys

/-- The 64-bit number that decimal digits spell, with or without a plus sign before them. -/
def readWord? (text : String) : Option UInt64 :=
  let digits :=
    match text.toList with
    | '+' :: rest => rest
    | chars => chars
  if digits ≠ [] ∧ digits.all Char.isDigit then
    let value := Nat.ofDigitChars 10 digits 0
    if value < UInt64.size then some (UInt64.ofNat value) else none
  else none

end PerfectKeys
