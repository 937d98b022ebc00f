import SealedStream.Bytes

/-!
# Poly1305

A one-time authenticator: the message, cut into 16-byte digits, is evaluated as a polynomial
modulo `2 ^ 130 - 5`.

## Main definitions

* `Poly1305.mac` — the 16 bytes that authenticate a message under a 32-byte key.
-/

namespace SealedStream.Poly1305

open Bytes

/-- The modulus `2 ^ 130 - 5`. -/
def modulus : Nat := 0x3fffffffffffffffffffffffffffffffb

/-- The bits of a multiplier that may be set. -/
def clampMask : Nat := 0x0ffffffc0ffffffc0ffffffc0fffffff

/-- Takes in one digit, marked by a one bit after its last byte. -/
def step (r acc : Nat) (digit : Bytes) : Nat := (acc + ofLittleEndian (digit ++ [1])) * r % modulus

/-- The authenticator of a message: the polynomial's value plus the second half of the key. -/
def mac (key message : Bytes) : Bytes :=
  let r := ofLittleEndian (key.take 16) &&& clampMask
  let s := ofLittleEndian ((key.drop 16).take 16)
  littleEndian 16 ((blocks 16 message).foldl (step r) 0 + s)

@[simp] theorem length_mac (key message : Bytes) : (mac key message).length = 16 := by simp [mac]

end SealedStream.Poly1305
