import SealedStream.Frame.Header
import SealedStream.Suite

/-!
# Sealed frames

Header and body of a frame are sealed one by one. The nonce of a seal holds the number of the frame
and which part it is, the associated data hold the number and the length of the plain text, so a part
opens only in its own place.

## Main definitions

* `Frame.nonce`, `Frame.aad` — what a part is sealed with beside the key.
* `Frame.sealPart`, `Frame.openPart?` — one part sealed, and opened.
* `Frame.sealWhole` — a whole frame.
-/

namespace SealedStream.Frame

open Bytes

/-- The two parts of a frame. -/
inductive Part where
  | header
  | body
deriving DecidableEq, Repr, Inhabited

/-- The byte that stands for a part. -/
def Part.byte : Part → UInt8
  | header => 1
  | body => 2

/-- The bytes of a nonce. -/
def nonceLength : Nat := 12

/-- The bytes of the associated data. -/
def aadLength : Nat := 12

/-- The nonce of a part: the frame number, the part, and zeros. -/
def nonce (number : Nat) (part : Part) : Bytes := bigEndian 8 number ++ part.byte :: zeros 3

/-- The associated data of a part: the frame number and the length of the plain text. -/
def aad (number length : Nat) : Bytes := bigEndian 8 number ++ bigEndian 4 length

@[simp] theorem length_nonce (number : Nat) (part : Part) :
    (nonce number part).length = nonceLength := by simp [nonce, nonceLength]

@[simp] theorem length_aad (number length : Nat) : (aad number length).length = aadLength := by
  simp [aad, aadLength]

/-- A part of a frame, sealed. -/
def sealPart (suite : Suite) (key : Key) (number : Nat) (part : Part) (plain : Bytes) : Bytes :=
  suite.encrypt key (nonce number part) (aad number plain.length) plain

/-- The plain text of a sealed part, if it is the given part of that frame. -/
def openPart? (suite : Suite) (key : Key) (number : Nat) (part : Part) (sealed : Bytes) :
    Option Bytes :=
  suite.decrypt? key (nonce number part) (aad number (sealed.length - macLength)) sealed

@[simp] theorem length_sealPart (suite : Suite) (key : Key) (number : Nat) (part : Part)
    (plain : Bytes) : (sealPart suite key number part plain).length = plain.length + macLength :=
  suite.length_encrypt ..

/-- A part opens to a text exactly if it is that text sealed. -/
theorem openPart?_eq_some_iff {suite : Suite} {key : Key} {number : Nat} {part : Part}
    {sealed plain : Bytes} :
    openPart? suite key number part sealed = some plain ↔
      sealed = sealPart suite key number part plain := by
  unfold openPart? sealPart
  rw [suite.decrypt?_eq_some_iff]
  constructor
  · intro h
    have len := congrArg List.length h
    rw [suite.length_encrypt] at len
    rw [show plain.length = sealed.length - macLength by omega]
    exact h
  · intro h
    have len := congrArg List.length h
    rw [suite.length_encrypt] at len
    rw [show sealed.length - macLength = plain.length by omega]
    exact h

/-- The whole frame `number` with a payload and some bytes of padding. -/
def sealWhole (suite : Suite) (key : Key) (number : Nat) (payload : Bytes) (padding : Nat)
    (last : Bool) : Bytes :=
  let header : Header := ⟨version, last, UInt16.ofNat payload.length⟩
  sealPart suite key number .header header.encode ++
    sealPart suite key number .body (payload ++ zeros padding)

theorem length_sealWhole (suite : Suite) (key : Key) (number : Nat) (payload : Bytes)
    (padding : Nat) (last : Bool) :
    (sealWhole suite key number payload padding last).length =
      minLength + payload.length + padding := by
  simp [sealWhole, Header.encode, macLength, minLength]; omega

end SealedStream.Frame
