import SealedStream.Bytes
import SealedStream.Focus
import SealedStream.Stream.Fault

/-!
# Sources

What a stream is read from. The bytes arrive in chunks of any sizes; after the last chunk the source
ends or fails. How the bytes are cut into chunks is of no consequence to what is read.
-/

namespace SealedStream

/-- The chunks still to come, and the fault after them, if the source does not just end. -/
structure Source where
  chunks : List Bytes
  broken : Option IoFault
deriving DecidableEq, Repr, Inhabited

namespace Source

/-- The bytes still to come. -/
def rest (s : Source) : Bytes := s.chunks.flatten

/-- The first `n` bytes of some chunks, or all if there are fewer, and the chunks after them. -/
def split : Nat → List Bytes → Bytes × List Bytes
  | _, [] => ([], [])
  | n, chunk :: chunks =>
    if chunk.length ≤ n then
      let (front, back) := split (n - chunk.length) chunks
      (chunk ++ front, back)
    else (chunk.take n, chunk.drop n :: chunks)

theorem split_fst (n : Nat) (chunks : List Bytes) : (split n chunks).1 = chunks.flatten.take n := by
  induction chunks generalizing n with
  | nil => simp [split]
  | cons chunk chunks ih =>
    unfold split; split
    · simp [List.take_append, List.take_of_length_le, *]
    · rename_i h
      simp [List.take_append, Nat.sub_eq_zero_of_le (Nat.le_of_not_le h)]

theorem split_snd (n : Nat) (chunks : List Bytes) :
    (split n chunks).2.flatten = chunks.flatten.drop n := by
  induction chunks generalizing n with
  | nil => simp [split]
  | cons chunk chunks ih =>
    unfold split; split
    · simp [List.drop_append, List.drop_of_length_le, *]
    · rename_i h
      simp [List.drop_append, Nat.sub_eq_zero_of_le (Nat.le_of_not_le h)]

/-- Reads exactly `n` bytes. If there are fewer, all are used up; the fault is then the one the
source fails with, or that the stream is cut short. -/
def exactly (n : Nat) : Action StreamFault Source Bytes := do
  let s ← get
  let (front, back) := split n s.chunks
  set { s with chunks := back }
  if front.length = n then return front
  match s.broken with
  | some fault => throw (if fault.atEnd then .cutShort else .io fault)
  | none => throw .cutShort

/-- Reads to the end, but at most `n` bytes. A fault of the source counts only if fewer than `n`
bytes come before it. -/
def atMost (n : Nat) : Action StreamFault Source Bytes := do
  let s ← get
  let (front, back) := split n s.chunks
  set { s with chunks := back }
  if front.length = n then return front
  match s.broken with
  | some fault => throw (.io fault)
  | none => return front

end Source

end SealedStream
