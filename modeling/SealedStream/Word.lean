import SealedStream.Bytes

/-!
# Words

The hashes and the cipher work on blocks of sixteen 32-bit words. BLAKE2s and ChaCha20 stir a block
in the same way: they see it as a square, and stir its four columns and then its four diagonals.

## Main definitions

* `Word.rotateLeft`, `Word.rotateRight` — rotation by a number of bits between 1 and 31.
* `Word.blockLittleEndian`, `Word.blockBigEndian` — the sixteen words that 64 bytes spell.
* `WordBlock.pick` — the word at a place.
* `WordBlock.stir`, `WordBlock.stirAll` — the stirring of four words, and of a block.
-/

namespace SealedStream

/-- A 32-bit word. -/
abbrev Word := UInt32

/-- A block of sixteen words. -/
abbrev WordBlock := Vector Word 16

namespace Word

/-- The word `w` rotated `n` bits up, for `n` between 1 and 31. -/
@[inline] def rotateLeft (w n : Word) : Word := (w <<< n) ||| (w >>> (32 - n))

/-- The word `w` rotated `n` bits down, for `n` between 1 and 31. -/
@[inline] def rotateRight (w n : Word) : Word := (w >>> n) ||| (w <<< (32 - n))

/-- The sixteen words of a 64-byte block, each spelled least significant byte first; missing bytes
count as zero. -/
def blockLittleEndian (bs : Bytes) : WordBlock :=
  Vector.ofFn fun i => UInt32.ofNat (Bytes.ofLittleEndian ((bs.drop (4 * i)).take 4))

/-- The sixteen words of a 64-byte block, each spelled most significant byte first. -/
def blockBigEndian (bs : Bytes) : WordBlock :=
  Vector.ofFn fun i => UInt32.ofNat (Bytes.ofBigEndian ((bs.drop (4 * i)).take 4))

/-- The bytes of some words, each least significant byte first. -/
def toLittleEndian (ws : List Word) : Bytes := ws.flatMap fun w => Bytes.littleEndian 4 w.toNat

/-- The bytes of some words, each most significant byte first. -/
def toBigEndian (ws : List Word) : Bytes := ws.flatMap fun w => Bytes.bigEndian 4 w.toNat

@[simp] theorem length_toLittleEndian (ws : List Word) :
    (toLittleEndian ws).length = 4 * ws.length := by
  induction ws with
  | nil => rfl
  | cons w ws ih => simp only [toLittleEndian, List.flatMap_cons, List.length_append,
      List.length_cons, Bytes.length_littleEndian] at ih ⊢; omega

@[simp] theorem length_toBigEndian (ws : List Word) :
    (toBigEndian ws).length = 4 * ws.length := by
  induction ws with
  | nil => rfl
  | cons w ws ih => simp only [toBigEndian, List.flatMap_cons, List.length_append,
      List.length_cons, Bytes.length_bigEndian] at ih ⊢; omega

end Word

namespace WordBlock

/-- The word at a place, counted modulo 16. -/
def pick (v : WordBlock) (n : Nat) : Word := v[n % 16]

/-- Stirs four words of a block, with two words added in. -/
def stir (rotate : Word → Word → Word) (a b c d : Fin 16) (x y : Word) (v : WordBlock) :
    WordBlock :=
  let a₁ := v[a] + v[b] + x
  let d₁ := rotate (v[d] ^^^ a₁) 16
  let c₁ := v[c] + d₁
  let b₁ := rotate (v[b] ^^^ c₁) 12
  let a₂ := a₁ + b₁ + y
  let d₂ := rotate (d₁ ^^^ a₂) 8
  let c₂ := c₁ + d₂
  let b₂ := rotate (b₁ ^^^ c₂) 7
  (((v.set a a₂).set b b₂).set c c₂).set d d₂

/-- Stirs the columns of a block and then its diagonals, adding in the words of `m` two at a time. -/
def stirAll (rotate : Word → Word → Word) (m : Nat → Word) (v : WordBlock) : WordBlock :=
  v |> stir rotate 0 4 8 12 (m 0) (m 1)
    |> stir rotate 1 5 9 13 (m 2) (m 3)
    |> stir rotate 2 6 10 14 (m 4) (m 5)
    |> stir rotate 3 7 11 15 (m 6) (m 7)
    |> stir rotate 0 5 10 15 (m 8) (m 9)
    |> stir rotate 1 6 11 12 (m 10) (m 11)
    |> stir rotate 2 7 8 13 (m 12) (m 13)
    |> stir rotate 3 4 9 14 (m 14) (m 15)

end WordBlock

end SealedStream
