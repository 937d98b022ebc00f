import SealedStream.Bytes
import SealedStream.Focus
import SealedStream.Stream.Fault

/-!
# Sinks

What a stream is written to. A sink may fail after it has taken any number of bytes: then it keeps
what it took and takes nothing more. It may also fail to flush.
-/

namespace SealedStream

/-- The bytes taken so far, and when the sink fails. -/
structure Sink where
  taken : Bytes
  /-- How many more bytes it takes, and the fault after them; `none` if it takes any number. -/
  room : Option (Nat × IoFault)
  /-- The fault of flushing. -/
  stuck : Option IoFault
deriving DecidableEq, Repr, Inhabited

namespace Sink

/-- A sink that never fails. -/
def unlimited : Sink := ⟨[], none, none⟩

/-- Takes all the bytes, or as many as there is room for. -/
def take (bs : Bytes) : Action IoFault Sink Unit := fun s =>
  match s.room with
  | none => .ok () { s with taken := s.taken ++ bs }
  | some (left, fault) =>
    let kept : Sink :=
      { s with taken := s.taken ++ bs.take left, room := some (left - bs.length, fault) }
    if bs.length ≤ left then .ok () kept else .error fault kept

/-- Passes on what was taken. -/
def flush : Action IoFault Sink Unit := do
  match (← get).stuck with
  | none => pure ()
  | some fault => throw fault

end Sink

end SealedStream
