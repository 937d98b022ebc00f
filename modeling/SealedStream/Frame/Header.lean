import SealedStream.Bytes.Hex

/-!
# Frame headers

A frame consists of a sealed header and a sealed body. The header is four bytes: the version, the
flags and the length of the payload, most significant byte first. The body is the payload followed
by zero bytes; how many is told by the length of the whole frame.

## Main definitions

* `Frame.Header.encode`, `Frame.Header.decode` — the four bytes of a header, and back.
* `Frame.Fault` — what can be wrong with a frame that is genuine.
-/

namespace SealedStream.Frame

open Bytes

/-! ## Lengths -/

/-- The bytes of a header before it is sealed. -/
def headerLength : Nat := 4

/-- The bytes of a sealed header. -/
def sealedHeaderLength : Nat := 20

/-- The bytes of the shortest frame: a sealed header and a sealed empty body. -/
def minLength : Nat := 36

/-- The bytes of the longest frame. -/
def maxLength : Nat := 1024

/-- The most bytes that a payload and its padding take in one frame. -/
def maxPayload : Nat := 988

/-- The version of the frame format. -/
def version : UInt8 := 1

/-- The flag of the last frame of a stream. -/
def lastFlag : UInt8 := 1

/-! ## Faults -/

/-- What is wrong with the content of a frame. -/
inductive Fault where
  | tooShort (expected actual : Nat)
  | unsupportedVersion (version : UInt8)
  | reservedFlags (flags : UInt8)
  | payloadTooLong (length : Nat)
  /-- The header announces more payload than the body has. -/
  | payloadMissing (announced available : Nat)
  | tooLong (limit : Nat)
  | padding
deriving DecidableEq, Repr, Inhabited

/-- The written form of a fault. -/
def Fault.text : Fault → String
  | tooShort expected actual =>
    "frame too short: expected at least " ++ toString expected ++ " bytes, got " ++ toString actual
  | unsupportedVersion v => "unsupported protocol version: 0x" ++ toHex [v]
  | reservedFlags f => "invalid flags: 0x" ++ toHex [f] ++ " (reserved bits must be 0)"
  | payloadTooLong n => "payload length " ++ toString n ++ " exceeds maximum"
  | payloadMissing announced available =>
    "payload length mismatch: header says " ++ toString announced ++ ", but " ++
      toString available ++ " bytes available"
  | tooLong limit => "frame exceeds frame length " ++ toString limit
  | padding => "non-zero padding"

/-! ## Headers -/

/-- The header of a frame. -/
structure Header where
  version : UInt8
  /-- The frame is the last one of its stream. -/
  last : Bool
  /-- The length of the payload; the rest of the body is padding. -/
  payload : UInt16
deriving DecidableEq, Repr, Inhabited

/-- The four bytes of a header. -/
def Header.encode (h : Header) : Bytes :=
  [h.version, if h.last then lastFlag else 0] ++ bigEndian 2 h.payload.toNat

/-- The header that four bytes spell. The version is checked first, then the flags, then the
length. -/
def Header.decode : Bytes → Except Fault Header
  | v :: flags :: high :: low :: _ =>
    let payload := ofBigEndian [high, low]
    if v ≠ Frame.version then throw (.unsupportedVersion v)
    else if flags &&& ~~~lastFlag ≠ 0 then throw (.reservedFlags flags)
    else if maxPayload < payload then throw (.payloadTooLong payload)
    else pure ⟨v, flags &&& lastFlag ≠ 0, UInt16.ofNat payload⟩
  | bs => throw (.tooShort headerLength bs.length)

/-- A header of this version reads back, if its payload fits into a frame. -/
theorem Header.decode_encode {h : Header} (version : h.version = Frame.version)
    (short : h.payload.toNat ≤ maxPayload) : decode h.encode = .ok h := by
  obtain ⟨v, last, payload⟩ := h
  subst version
  have length := ofBigEndian_bigEndian_two payload.toNat_lt
  have fits : ¬ maxPayload < payload.toNat := Nat.not_lt.2 short
  simp only [bigEndian, List.nil_append, List.cons_append] at length
  simp only [encode, bigEndian, List.nil_append, List.cons_append, decode, length]
  cases last
  · simp [fits, lastFlag]; rfl
  · simp [fits, lastFlag]; rfl

end Frame

/-! ## Frames -/

/-- A frame as its reader sees it: its place in the stream and its payload without the padding. -/
structure Frame where
  number : Nat
  payload : Bytes
  last : Bool
deriving DecidableEq, Repr, Inhabited

end SealedStream
