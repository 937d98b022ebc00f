import SealedStream.Word

/-!
# BLAKE2s

The unkeyed hash of 32 bytes. Input is taken in blocks of 64 bytes, the last one filled up with
zeros and marked; a counter of the bytes taken so far enters every block.

## Main definitions

* `Blake2s.compress` — the state after one more block.
* `Blake2s.hash` — the digest of a byte string.
-/

namespace SealedStream.Blake2s

open Bytes

/-- The eight words between two blocks. -/
abbrev State := Vector Word 8

/-- The initial values that the standard fixes. -/
def iv : State :=
  #v[0x6a09e667, 0xbb67ae85, 0x3c6ef372, 0xa54ff53a, 0x510e527f, 0x9b05688c, 0x1f83d9ab, 0x5be0cd19]

/-- The order in which each of the ten rounds takes the words of a block. -/
def sigma : List (List Nat) :=
  [[0, 1, 2, 3, 4, 5, 6, 7, 8, 9, 10, 11, 12, 13, 14, 15],
   [14, 10, 4, 8, 9, 15, 13, 6, 1, 12, 0, 2, 11, 7, 5, 3],
   [11, 8, 12, 0, 5, 2, 15, 13, 10, 14, 3, 6, 7, 1, 9, 4],
   [7, 9, 3, 1, 13, 12, 11, 14, 2, 6, 5, 10, 4, 0, 15, 8],
   [9, 0, 5, 7, 2, 4, 10, 15, 14, 1, 11, 12, 6, 8, 3, 13],
   [2, 12, 6, 10, 0, 11, 8, 3, 4, 13, 7, 5, 15, 14, 1, 9],
   [12, 5, 1, 15, 14, 13, 4, 10, 0, 7, 6, 3, 9, 2, 8, 11],
   [13, 11, 7, 14, 12, 1, 3, 9, 5, 0, 15, 4, 8, 6, 2, 10],
   [6, 15, 14, 9, 11, 3, 0, 8, 12, 2, 13, 7, 1, 4, 10, 5],
   [10, 2, 8, 4, 7, 6, 1, 5, 15, 11, 9, 14, 3, 12, 13, 0]]

/-- One round: the words of the message are added in, in the order `s`. -/
def round (m v : WordBlock) (s : List Nat) : WordBlock :=
  v.stirAll Word.rotateRight fun i => m.pick (s.getD i 0)

/-- The state after one more block, given the number of bytes taken with it and whether it is the
last. -/
def compress (h : State) (block : Bytes) (taken : Nat) (last : Bool) : State :=
  let low := iv[4] ^^^ UInt32.ofNat taken
  let high := iv[5] ^^^ UInt32.ofNat (taken / 4294967296)
  let mark := if last then iv[6] ^^^ 0xffffffff else iv[6]
  let start : WordBlock :=
    #v[h[0], h[1], h[2], h[3], h[4], h[5], h[6], h[7],
       iv[0], iv[1], iv[2], iv[3], low, high, mark, iv[7]]
  let v := sigma.foldl (round (Word.blockLittleEndian block)) start
  Vector.ofFn fun i : Fin 8 => h[i] ^^^ v[Fin.castAdd 8 i] ^^^ v[Fin.natAdd 8 i]

/-- Takes in the blocks one by one; the last of them ends at byte `total`. -/
def absorb (total : Nat) : State → Nat → List Bytes → State
  | h, _, [] => h
  | h, taken, block :: rest =>
    if rest.isEmpty then compress h block total true
    else absorb total (compress h block (taken + 64) false) (taken + 64) rest

/-- The starting state for a digest of 32 bytes without a key. -/
def start : State := iv.set 0 (iv[0] ^^^ 0x01010020)

/-- The digest of a byte string. An empty string still makes one block. -/
def hash (bs : Bytes) : Vector UInt8 32 :=
  let pieces := if bs.isEmpty then [[]] else blocks 64 bs
  ⟨(Word.toLittleEndian (absorb bs.length start 0 pieces).toList).toArray, by simp⟩

end SealedStream.Blake2s
