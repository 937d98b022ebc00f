import SealedStream.Bytes

/-!
# Hexadecimal text

Every byte is written as two lower-case digits; nothing else is read.
-/

namespace SealedStream.Bytes

/-- The digits of a byte, the greater place first. -/
def hexDigits (b : UInt8) : List Char := [Nat.digitChar (b.toNat / 16), Nat.digitChar (b.toNat % 16)]

/-- The written form of some bytes. -/
def toHex (bs : Bytes) : String := String.ofList (bs.flatMap hexDigits)

/-- The value of a digit. -/
def hexValue? (c : Char) : Option Nat :=
  if '0' ≤ c ∧ c ≤ '9' then some (c.toNat - 48)
  else if 'a' ≤ c ∧ c ≤ 'f' then some (c.toNat - 87)
  else none

/-- The bytes that pairs of digits spell. -/
def ofHexDigits? : List Char → Option Bytes
  | [] => some []
  | [_] => none
  | a :: b :: rest => do
    let high ← hexValue? a
    let low ← hexValue? b
    return UInt8.ofNat (high * 16 + low) :: (← ofHexDigits? rest)

/-- The bytes whose written form is `s`. -/
def ofHex? (s : String) : Option Bytes := ofHexDigits? s.toList

end SealedStream.Bytes
