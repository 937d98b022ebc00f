import SealedStream.Suite

/-!
# Suites to compute with

Their secrets, keys and tags tell what they were derived from, so a run can be followed step by step
without a cipher. Like every suite they obey the law of sealing, but they hide nothing.

## Main definitions

* `bare` — anything that is sealed opens with every key and in every place.
* `numbered` — what is sealed opens only in its own place.
-/

namespace SealedStream

/-- A text with a mark of the length of an authenticator after it reads back if the mark is found. -/
theorem unmarked_eq_some_iff {mark sealed plain : Bytes} (length : mark.length = macLength) :
    (if mark <:+ sealed then some (sealed.take (sealed.length - macLength)) else none) = some plain ↔
      sealed = plain ++ mark := by
  rw [Option.ite_none_right_eq_some]
  constructor
  · rintro ⟨⟨front, rfl⟩, eq⟩
    rw [List.length_append, length, Nat.add_sub_cancel, List.take_left, Option.some.injEq] at eq
    rw [eq]
  · rintro rfl
    refine ⟨List.suffix_append .., ?_⟩
    rw [List.length_append, length, Nat.add_sub_cancel, List.take_left]

/-- Secrets that show their period, keys that show the side and the stream, and texts that anyone can
read. -/
def bare : Suite where
  next period key := key.set 0 (UInt8.ofNat period)
  tagKey side key := key.set 1 (if side = .alice then 1 else 2)
  frameKey side stream key := (key.set 1 (if side = .alice then 3 else 4)).set 2 (UInt8.ofNat stream)
  tag key stream :=
    (((Vector.replicate 16 (0 : UInt8)).set 0 key[0]).set 1 key[1]).set 2 (UInt8.ofNat stream)
  encrypt _ _ _ plain := plain ++ Bytes.zeros macLength
  decrypt? _ _ _ sealed :=
    if Bytes.zeros macLength <:+ sealed then some (sealed.take (sealed.length - macLength)) else none
  length_encrypt _ _ _ plain := by simp [Bytes.zeros]
  decrypt?_eq_some_iff _ _ _ _ _ := unmarked_eq_some_iff (Bytes.length_zeros macLength)

/-- The authenticator shows the nonce. -/
def numbered : Suite :=
  let mac (nonce : Bytes) : Bytes := (nonce ++ Bytes.zeros macLength).take macLength
  { bare with
    encrypt := fun _ nonce _ plain => plain ++ mac nonce
    decrypt? := fun _ nonce _ sealed =>
      if mac nonce <:+ sealed then some (sealed.take (sealed.length - macLength)) else none
    length_encrypt := by simp [mac, Bytes.zeros]
    decrypt?_eq_some_iff := fun _ _ _ _ _ => unmarked_eq_some_iff (by simp [mac, Bytes.zeros]) }

end SealedStream
