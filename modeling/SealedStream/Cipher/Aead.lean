import SealedStream.Cipher.ChaCha20
import SealedStream.Cipher.Poly1305

/-!
# ChaCha20-Poly1305

Authenticated encryption with associated data. The authenticator covers the associated data and the
enciphered text, each filled up to whole 16-byte digits, and both lengths.

## Main definitions

* `Aead.encipher` — masks a text with the key stream; its own inverse.
* `Aead.mac` — the authenticator of an enciphered text.
* `Aead.open?` — the plain text, if the authenticator is right.
-/

namespace SealedStream.Aead

open Bytes

/-- A text masked with the key stream. -/
def encipher (key nonce text : Bytes) : Bytes :=
  xor text (ChaCha20.keystream key nonce text.length)

@[simp] theorem length_encipher (key nonce text : Bytes) :
    (encipher key nonce text).length = text.length :=
  length_xor (ChaCha20.le_length_keystream ..)

@[simp] theorem encipher_encipher (key nonce text : Bytes) :
    encipher key nonce (encipher key nonce text) = text := by
  rw [encipher, length_encipher, encipher]
  exact xor_xor_cancel (ChaCha20.le_length_keystream ..)

/-- Zeros up to the next multiple of 16. -/
def fill (n : Nat) : Bytes := zeros ((16 - n % 16) % 16)

/-- The 16 bytes that authenticate an enciphered text together with `aad`. -/
def mac (key nonce aad text : Bytes) : Bytes :=
  Poly1305.mac ((ChaCha20.block key nonce 0).take 32) <|
    aad ++ fill aad.length ++ text ++ fill text.length ++
      littleEndian 8 aad.length ++ littleEndian 8 text.length

@[simp] theorem length_mac (key nonce aad text : Bytes) : (mac key nonce aad text).length = 16 := by
  simp [mac]

/-- The plain text of an enciphered one, if `tag` is its authenticator. -/
def open? (key nonce aad text tag : Bytes) : Option Bytes :=
  if mac key nonce aad text = tag then some (encipher key nonce text) else none

end SealedStream.Aead
