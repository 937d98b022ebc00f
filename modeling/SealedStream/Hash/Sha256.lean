import SealedStream.Word

/-!
# SHA-256

Input is padded to whole blocks of 64 bytes and its length in bits appended; each block's sixteen
words are stretched to sixty-four and mixed into eight.

## Main definitions

* `Sha256.compress` — the state after one more block.
* `Sha256.hash` — the digest of a byte string.
-/

namespace SealedStream.Sha256

open Bytes

/-- The eight words between two blocks. -/
structure State where
  a : Word
  b : Word
  c : Word
  d : Word
  e : Word
  f : Word
  g : Word
  h : Word

/-- Wordwise sum. -/
def State.add (s t : State) : State :=
  ⟨s.a + t.a, s.b + t.b, s.c + t.c, s.d + t.d, s.e + t.e, s.f + t.f, s.g + t.g, s.h + t.h⟩

/-- The words in order. -/
def State.words (s : State) : List Word := [s.a, s.b, s.c, s.d, s.e, s.f, s.g, s.h]

/-- The state before the first block. -/
def start : State :=
  ⟨0x6a09e667, 0xbb67ae85, 0x3c6ef372, 0xa54ff53a, 0x510e527f, 0x9b05688c, 0x1f83d9ab, 0x5be0cd19⟩

/-- The constant of each of the sixty-four rounds. -/
def constants : List Word :=
  [0x428a2f98, 0x71374491, 0xb5c0fbcf, 0xe9b5dba5, 0x3956c25b, 0x59f111f1, 0x923f82a4, 0xab1c5ed5,
   0xd807aa98, 0x12835b01, 0x243185be, 0x550c7dc3, 0x72be5d74, 0x80deb1fe, 0x9bdc06a7, 0xc19bf174,
   0xe49b69c1, 0xefbe4786, 0x0fc19dc6, 0x240ca1cc, 0x2de92c6f, 0x4a7484aa, 0x5cb0a9dc, 0x76f988da,
   0x983e5152, 0xa831c66d, 0xb00327c8, 0xbf597fc7, 0xc6e00bf3, 0xd5a79147, 0x06ca6351, 0x14292967,
   0x27b70a85, 0x2e1b2138, 0x4d2c6dfc, 0x53380d13, 0x650a7354, 0x766a0abb, 0x81c2c92e, 0x92722c85,
   0xa2bfe8a1, 0xa81a664b, 0xc24b8b70, 0xc76c51a3, 0xd192e819, 0xd6990624, 0xf40e3585, 0x106aa070,
   0x19a4c116, 0x1e376c08, 0x2748774c, 0x34b0bcb5, 0x391c0cb3, 0x4ed8aa4a, 0x5b9cca4f, 0x682e6ff3,
   0x748f82ee, 0x78a5636f, 0x84c87814, 0x8cc70208, 0x90befffa, 0xa4506ceb, 0xbef9a3f7, 0xc67178f2]

/-- The word that follows sixteen words of the stretched message. -/
def following (w : WordBlock) : Word :=
  let low := (w.pick 1).rotateRight 7 ^^^ (w.pick 1).rotateRight 18 ^^^ (w.pick 1 >>> 3)
  let high := (w.pick 14).rotateRight 17 ^^^ (w.pick 14).rotateRight 19 ^^^ (w.pick 14 >>> 10)
  w.pick 0 + low + w.pick 9 + high

/-- Sixteen words moved on by one: the oldest leaves, `x` enters. -/
def slide (w : WordBlock) (x : Word) : WordBlock := (w.push x).tail

/-- One round with the message word `x` and the constant `k`. -/
def round (s : State) (x k : Word) : State :=
  let mixE := s.e.rotateRight 6 ^^^ s.e.rotateRight 11 ^^^ s.e.rotateRight 25
  let choice := (s.e &&& s.f) ^^^ (~~~s.e &&& s.g)
  let t₁ := s.h + mixE + choice + k + x
  let mixA := s.a.rotateRight 2 ^^^ s.a.rotateRight 13 ^^^ s.a.rotateRight 22
  let majority := (s.a &&& s.b) ^^^ (s.a &&& s.c) ^^^ (s.b &&& s.c)
  ⟨t₁ + (mixA + majority), s.a, s.b, s.c, s.d + t₁, s.e, s.f, s.g⟩

/-- All rounds for the given constants; `w` holds the next sixteen message words. -/
def rounds : List Word → WordBlock → State → State
  | [], _, s => s
  | k :: ks, w, s => rounds ks (slide w (following w)) (round s (w.pick 0) k)

/-- The state after one more block of 64 bytes. -/
def compress (s : State) (block : Bytes) : State :=
  s.add (rounds constants (Word.blockBigEndian block) s)

/-- The input followed by a one bit, zeros and its length in bits, in whole blocks. -/
def pad (bs : Bytes) : Bytes :=
  bs ++ 0x80 :: zeros ((119 - bs.length % 64) % 64) ++ bigEndian 8 (8 * bs.length)

/-- The digest of a byte string, 32 bytes. -/
def hash (bs : Bytes) : Bytes := Word.toBigEndian ((blocks 64 (pad bs)).foldl compress start).words

@[simp] theorem length_hash (bs : Bytes) : (hash bs).length = 32 := by simp [hash, State.words]

end SealedStream.Sha256
