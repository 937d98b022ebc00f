import SealedStream.Word

/-!
# ChaCha20

A key, a nonce and a block number give 64 bytes; the blocks in order give a key stream of any
length, and a text is enciphered by masking it with the stream.

## Main definitions

* `ChaCha20.block` — the 64 bytes of one block.
* `ChaCha20.keystream` — the blocks from number 1 on.
-/

namespace SealedStream.ChaCha20

open Bytes

/-- A round over the columns and one over the diagonals. -/
def doubleRound (v : WordBlock) : WordBlock := v.stirAll Word.rotateLeft fun _ => 0

/-- The block before the rounds: four constants, the key, the block number and the nonce. -/
def initial (key nonce : Bytes) (number : Nat) : WordBlock :=
  Word.blockLittleEndian (ascii "expand 32-byte k" ++ key ++ littleEndian 4 number ++ nonce)

/-- Ten double rounds. -/
def scramble : Nat → WordBlock → WordBlock
  | 0, v => v
  | n + 1, v => scramble n (doubleRound v)

/-- The 64 bytes of block `number`. -/
def block (key nonce : Bytes) (number : Nat) : Bytes :=
  let v := initial key nonce number
  Word.toLittleEndian (Vector.zipWith (· + ·) (scramble 10 v) v).toList

@[simp] theorem length_block (key nonce : Bytes) (number : Nat) :
    (block key nonce number).length = 64 := by simp [block]

/-- The blocks from number `first` on, `count` of them. -/
def blocksFrom (key nonce : Bytes) : Nat → Nat → Bytes
  | _, 0 => []
  | first, count + 1 => block key nonce first ++ blocksFrom key nonce (first + 1) count

@[simp] theorem length_blocksFrom (key nonce : Bytes) (first count : Nat) :
    (blocksFrom key nonce first count).length = 64 * count := by
  induction count generalizing first with
  | zero => rfl
  | succ count ih => simp [blocksFrom, ih]; omega

/-- At least `n` bytes of key stream. The first of its blocks is number 1, since block 0 keys the
authenticator. -/
def keystream (key nonce : Bytes) (n : Nat) : Bytes := blocksFrom key nonce 1 (blockCount 64 n)

theorem le_length_keystream (key nonce : Bytes) (n : Nat) : n ≤ (keystream key nonce n).length := by
  simp only [keystream, length_blocksFrom, blockCount]; omega

end SealedStream.ChaCha20
