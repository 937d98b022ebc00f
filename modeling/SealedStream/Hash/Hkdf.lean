import SealedStream.Hash.Sha256

/-!
# HMAC and HKDF over SHA-256

Keys here are never longer than a block. One step of HKDF's expansion is enough, since nothing
longer than a digest is derived.

## Main definitions

* `Hkdf.hmac` — the keyed hash of a message.
* `Hkdf.expand` — the first bytes of HKDF-Expand.
-/

namespace SealedStream.Hkdf

open Bytes

/-- The keyed hash of a message, under a key of at most 64 bytes. -/
def hmac (key message : Bytes) : Bytes :=
  let block := key ++ zeros (64 - key.length)
  let inner := Sha256.hash (block.map (· ^^^ 0x36) ++ message)
  Sha256.hash (block.map (· ^^^ 0x5c) ++ inner)

@[simp] theorem length_hmac (key message : Bytes) : (hmac key message).length = 32 := by simp [hmac]

/-- The first `n` bytes derived from a uniformly random key for the purpose `info`, where `n` is
at most the 32 bytes of one digest. -/
def expand (key info : Bytes) (n : Nat) (h : n ≤ 32) : Vector UInt8 n :=
  ⟨((hmac key (info ++ [1])).take n).toArray, by simp [h]⟩

end SealedStream.Hkdf
