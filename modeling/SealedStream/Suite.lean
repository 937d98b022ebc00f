import SealedStream.Cipher.Aead
import SealedStream.Count
import SealedStream.Hash.Blake2s
import SealedStream.Hash.Hkdf
import SealedStream.Identity

/-!
# The cipher suite

Everything else takes its cryptography from a `Suite`: the step of the secret chain, the keys and
tags derived from a secret, and sealing. A suite's sealing is exact: a sealed text opens to a plain
text if and only if it is that text sealed.

## Main definitions

* `Key`, `Tag` — 32 and 16 bytes.
* `Suite` — the operations and the law of sealing.
* `Suite.standard` — BLAKE2s for the chain, HKDF over SHA-256 for keys and tags,
  ChaCha20-Poly1305 for sealing.
* `Suite.walk` — the secret of a later period of the chain.
-/

namespace SealedStream

open Bytes

/-- A secret or a derived key. -/
abbrev Key := Vector UInt8 32

/-- The bytes that open a stream and tell its receiver which secret it belongs to. -/
abbrev Tag := Vector UInt8 16

/-- The bytes of a key. -/
def Key.length : Nat := 32

/-- The bytes of a tag. -/
def Tag.length : Nat := 16

/-- A key that has been wiped. -/
def Key.wiped : Key := Vector.replicate 32 0

/-- The written form of any key; it shows nothing of the key. -/
def Key.text (_ : Key) : String := "SecretKey([REDACTED])"

/-- The bytes by which sealing lengthens a text. -/
def macLength : Nat := 16

/-- The cryptographic operations. -/
structure Suite where
  /-- The secret of a period, from the secret of the period before it. -/
  next : (period : Nat) → Key → Key
  /-- The key for the tags of the streams that one side writes. -/
  tagKey : Side → Key → Key
  /-- The key for the frames of one stream that one side writes. -/
  frameKey : Side → (stream : Nat) → Key → Key
  /-- The tag of a stream, under a tag key. -/
  tag : Key → (stream : Nat) → Tag
  /-- A text sealed under a key, a nonce and associated data. -/
  encrypt : Key → (nonce aad plain : Bytes) → Bytes
  /-- The plain text of a sealed one, if it is genuine. -/
  decrypt? : Key → (nonce aad sealed : Bytes) → Option Bytes
  length_encrypt : ∀ k nonce aad plain, (encrypt k nonce aad plain).length = plain.length + macLength
  decrypt?_eq_some_iff : ∀ k nonce aad sealed plain,
    decrypt? k nonce aad sealed = some plain ↔ sealed = encrypt k nonce aad plain

namespace Suite

/-! ## Walking the chain -/

/-- The secret after `count` steps of a chain, the first one into `period`. -/
def steps {α : Type} (next : Nat → α → α) : (count period : Nat) → α → α
  | 0, _, secret => secret
  | count + 1, period, secret => steps next count (period + 1) (next period secret)

/-- The secret of period `target`, from the secret of period `source`. A target that is not later
gives the secret itself, except that the greatest count is always stepped into. -/
def walk (suite : Suite) (source target : Nat) (secret : Key) : Key :=
  steps suite.next (target + 1 - Count.plus source 1) (Count.plus source 1) secret

/-! ## The standard suite -/

/-- What the next secret is derived for. -/
def nextLabel : String := "tagstream v1 next secret"

/-- What the tag key of a side is derived for. -/
def tagKeyLabel : Side → String
  | .alice => "tagstream v1 tag alice"
  | .bob => "tagstream v1 tag bob"

/-- What the frame keys of a side are derived for. -/
def frameKeyLabel : Side → String
  | .alice => "tagstream v1 frame alice"
  | .bob => "tagstream v1 frame bob"

/-- What a tag is derived for. -/
def tagLabel : String := "tagstream v1 tag"

/-- A text enciphered and followed by its authenticator. -/
def sealText (key : Key) (nonce aad plain : Bytes) : Bytes :=
  let text := Aead.encipher key.toList nonce plain
  text ++ Aead.mac key.toList nonce aad text

/-- Takes the last 16 bytes for the authenticator and the rest for the enciphered text. -/
def openText? (key : Key) (nonce aad sealed : Bytes) : Option Bytes :=
  if sealed.length < macLength then none
  else
    Aead.open? key.toList nonce aad
      (sealed.take (sealed.length - macLength)) (sealed.drop (sealed.length - macLength))

theorem length_sealText (key : Key) (nonce aad plain : Bytes) :
    (sealText key nonce aad plain).length = plain.length + macLength := by
  simp [sealText, macLength]

theorem openText?_eq_some_iff (key : Key) (nonce aad sealed plain : Bytes) :
    openText? key nonce aad sealed = some plain ↔ sealed = sealText key nonce aad plain := by
  constructor
  · intro h
    simp only [openText?, Aead.open?] at h
    split at h
    · cases h
    · split at h
      · rename_i genuine
        cases h
        conv => lhs; rw [← List.take_append_drop (sealed.length - macLength) sealed]
        simp only [sealText, Aead.encipher_encipher, genuine]
      · cases h
  · rintro rfl
    have len := length_sealText key nonce aad plain
    simp only [openText?, len, Nat.add_sub_cancel]
    rw [if_neg (by omega)]
    simp [sealText, Aead.open?]

/-- The suite that the wire format fixes. -/
def standard : Suite where
  next period secret := Blake2s.hash (ascii nextLabel ++ bigEndian 8 period ++ secret.toList)
  tagKey side secret := Hkdf.expand secret.toList (ascii (tagKeyLabel side)) 32 (by decide)
  frameKey side stream secret :=
    Hkdf.expand secret.toList (ascii (frameKeyLabel side) ++ bigEndian 8 stream) 32 (by decide)
  tag key stream := Hkdf.expand key.toList (ascii tagLabel ++ bigEndian 8 stream) 16 (by decide)
  encrypt := sealText
  decrypt? := openText?
  length_encrypt := length_sealText
  decrypt?_eq_some_iff := openText?_eq_some_iff

end Suite

end SealedStream
