/-!
# Byte strings

Byte strings are lists, so that splitting and joining have the list lemmas. Numbers are written on
a fixed number of bytes, either most significant byte first or last.

## Main definitions

* `Bytes.bigEndian`, `Bytes.littleEndian` — a number on a given number of bytes.
* `Bytes.ofBigEndian`, `Bytes.ofLittleEndian` — the number that some bytes spell.
* `Bytes.zeros`, `Bytes.ascii` — runs of zeros and the bytes of an ASCII text.
* `Bytes.xor` — the bytewise exclusive or of two strings.
* `Bytes.blocks` — the pieces of a string cut at every multiple of a size.
-/

namespace SealedStream

/-- A string of bytes. -/
abbrev Bytes := List UInt8

namespace Bytes

/-- The number `n` on `width` bytes, most significant first; what does not fit is dropped. -/
def bigEndian : Nat → Nat → Bytes
  | 0, _ => []
  | width + 1, n => bigEndian width (n / 256) ++ [UInt8.ofNat n]

/-- The number `n` on `width` bytes, least significant first; what does not fit is dropped. -/
def littleEndian : Nat → Nat → Bytes
  | 0, _ => []
  | width + 1, n => UInt8.ofNat n :: littleEndian width (n / 256)

/-- The number whose digits in base 256 are `bs`, most significant first. -/
def ofBigEndian (bs : Bytes) : Nat := bs.foldl (fun n b => n * 256 + b.toNat) 0

/-- The number whose digits in base 256 are `bs`, least significant first. -/
def ofLittleEndian (bs : Bytes) : Nat := bs.foldr (fun b n => b.toNat + n * 256) 0

/-- A run of `n` zero bytes. -/
def zeros (n : Nat) : Bytes := List.replicate n 0

/-- The bytes of a text that has ASCII characters only. -/
def ascii (s : String) : Bytes := s.toList.map fun c => UInt8.ofNat c.toNat

/-- Bytewise exclusive or, as long as the shorter string. -/
def xor (as bs : Bytes) : Bytes := List.zipWith (· ^^^ ·) as bs

/-- The first `count` pieces of `size` bytes; pieces past the end are short or empty. -/
def pieces (size : Nat) : Nat → Bytes → List Bytes
  | 0, _ => []
  | count + 1, bs => bs.take size :: pieces size count (bs.drop size)

/-- The number of pieces of `size` bytes that `length` bytes fill, the last one perhaps in part. -/
def blockCount (size length : Nat) : Nat := (length + size - 1) / size

/-- The string cut at every multiple of `size`; only the last piece may be shorter. -/
def blocks (size : Nat) (bs : Bytes) : List Bytes := pieces size (blockCount size bs.length) bs

@[simp] theorem length_bigEndian (width n : Nat) : (bigEndian width n).length = width := by
  induction width generalizing n with
  | zero => rfl
  | succ width ih => simp [bigEndian, ih]

@[simp] theorem length_littleEndian (width n : Nat) : (littleEndian width n).length = width := by
  induction width generalizing n with
  | zero => rfl
  | succ width ih => simp [littleEndian, ih]

@[simp] theorem length_zeros (n : Nat) : (zeros n).length = n := List.length_replicate

/-- A number below 65536 reads back from two bytes. -/
theorem ofBigEndian_bigEndian_two {n : Nat} (h : n < 65536) : ofBigEndian (bigEndian 2 n) = n := by
  simp [bigEndian, ofBigEndian]; omega

/-- Masking twice with the same string gives the bytes back. -/
theorem xor_xor_cancel {as bs : Bytes} (h : as.length ≤ bs.length) : xor (xor as bs) bs = as := by
  induction as generalizing bs with
  | nil => simp [xor]
  | cons a as ih =>
    match bs, h with
    | [], h => simp at h
    | b :: bs, h =>
      have tail := ih (Nat.le_of_succ_le_succ h)
      simp only [xor, List.zipWith_cons_cons, List.cons.injEq] at tail ⊢
      exact ⟨by rw [UInt8.xor_assoc, UInt8.xor_self, UInt8.xor_zero], tail⟩

theorem length_xor {as bs : Bytes} (h : as.length ≤ bs.length) : (xor as bs).length = as.length := by
  simp only [xor, List.length_zipWith]; omega

end Bytes

end SealedStream
