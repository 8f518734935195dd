import TableAsm.Word

/-! # Numerals

  Register names and address spaces end in decimal numerals, and sets of
  bits are written as hexadecimal ones. A numeral is one ASCII digit or
  more, and leading zeros do not matter.
-/

namespace TableAsm

namespace Numeral

/-- The number that decimal digits spell. -/
def value (digits : List Char) : Nat := Nat.ofDigitChars 10 digits 0

/-- The word that a non-empty run of decimal digits spells, if it is one and fits. -/
def word? (digits : List Char) : Option Word :=
  if digits ≠ [] ∧ digits.all Char.isDigit ∧ value digits < UInt64.size then
    some (BitVec.ofNat 64 (value digits))
  else none

/-- The value of a hexadecimal digit of either case. -/
def hexDigit? (c : Char) : Option Nat :=
  if '0' ≤ c ∧ c ≤ '9' then some (c.toNat - '0'.toNat)
  else if 'a' ≤ c ∧ c ≤ 'f' then some (c.toNat - 'a'.toNat + 10)
  else if 'A' ≤ c ∧ c ≤ 'F' then some (c.toNat - 'A'.toNat + 10)
  else none

/-- The number that a non-empty run of hexadecimal digits spells. -/
def hex? (digits : List Char) : Option Nat :=
  if digits = [] then none
  else digits.foldlM (fun n c => (hexDigit? c).map (16 * n + ·)) 0

end Numeral

end TableAsm
