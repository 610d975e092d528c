/-!
# Hexadecimal Digits

The value of a single hexadecimal digit, shared by everything that reads
characters by number.

## Main definitions

* `hexDigit?`: The value of a digit of either case.
* `hexNumber?`: The number that a run of digits spells.
-/

namespace YamlLocator

namespace Text

/-- The value of a hexadecimal digit of either case. -/
def hexDigit? (c : Char) : Option Nat :=
  if '0' ≤ c ∧ c ≤ '9' then some (c.toNat - '0'.toNat)
  else if 'a' ≤ c ∧ c ≤ 'f' then some (c.toNat - 'a'.toNat + 10)
  else if 'A' ≤ c ∧ c ≤ 'F' then some (c.toNat - 'A'.toNat + 10)
  else none

/-- The number that the digits spell, if all of them are hexadecimal. -/
def hexNumber? (digits : List Char) : Option Nat :=
  digits.foldlM (fun number c => (hexDigit? c).map (number * 16 + ·)) 0

end Text

end YamlLocator
