import SealedStream.Count
import SealedStream.Frame.Sealed
import SealedStream.Secret
import SealedStream.Stream.Sink

/-!
# Writing a stream

The peer that opens a stream puts its tag in front of the first frame; the answer on the same stream
has no tag. All frames but the last are as long as the frame length. A stream has a capacity, from
which tag and frames are taken.

## Main definitions

* `Sender.opening`, `Sender.answering` — the two ways to begin.
* `Sender.write`, `Sender.submit` — one more frame; the same with its length reckoned in 64 bits.
* `Sender.wipe` — forgets the keys; nothing can be written afterwards.
-/

namespace SealedStream

/-- The writing end of a stream. -/
structure Sender where
  /-- The frame key; `none` once it was wiped. -/
  key? : Option Key
  /-- The tag, until it is written. -/
  tag? : Option Tag
  frameLength : Nat
  /-- The number of frames written. -/
  written : Nat
  /-- The bytes that may still be written. -/
  capacity : Nat
  sink : Sink
deriving DecidableEq, Repr

namespace Sender

/-- The bytes that every transport lets a stream have at least. -/
def minCapacity : Nat := 65536

/-- Begins a stream of our own: its tag is charged at once and written with the first frame. -/
def opening (suite : Suite) (ticket : Ticket) (capacity frameLength : Nat) (sink : Sink) :
    Except StreamFault Sender := do
  demandFrameLength frameLength
  if capacity < 16 then throw (.overCapacity 16 capacity)
  return {
    key? := some (suite.frameKey ticket.side ticket.stream ticket.key)
    tag? := some (suite.tag (suite.tagKey ticket.side ticket.key) ticket.stream)
    frameLength
    written := 0
    capacity := capacity - 16
    sink }

/-- Begins the answer on a stream that the peer opened. -/
def answering (suite : Suite) (ticket : Ticket) (capacity frameLength : Nat) (sink : Sink) :
    Except StreamFault Sender := do
  demandFrameLength frameLength
  return {
    key? := some (suite.frameKey ticket.side ticket.stream ticket.key)
    tag? := none
    frameLength
    written := 0
    capacity
    sink }

/-- The keys were wiped. -/
def Wiped (s : Sender) : Prop := s.key? = none

instance (s : Sender) : Decidable s.Wiped := inferInstanceAs (Decidable (_ = _))

/-- Forgets the frame key and a tag not yet written. -/
def wipe (s : Sender) : Sender := { s with key? := none, tag? := none }

/-- Hands bytes to the sink. A fault of the sink wipes the keys. -/
def put (bs : Bytes) : Action StreamFault Sender Unit := fun s =>
  match s.sink.take bs with
  | .ok () sink => .ok () { s with sink }
  | .error fault sink => .error (.io fault) { s with sink }.wipe

/-- What one frame is to hold: a payload, the number of zero bytes after it, and whether the frame is
the last one. -/
structure Sheet where
  payload : Bytes
  padding : Nat
  last : Bool
deriving DecidableEq, Repr, Inhabited

/-- The length of the frame that a sheet makes. -/
def Sheet.length (sheet : Sheet) : Nat :=
  Frame.minLength + sheet.payload.length + sheet.padding

/-- The length of the frame as it is reckoned; `none` if the program stops at it. -/
def Sheet.reckon (o : Overflow) (sheet : Sheet) : Option Nat := do
  let body ← o.count (sheet.payload.length + sheet.padding)
  o.count (Frame.minLength + body)

/-- Whether a frame of this length is to be written. A frame that does not fit is refused. An empty last
frame before the tag was written leaves no trace. -/
def judge (last : Bool) (length : Nat) (s : Sender) : Except StreamFault Bool :=
  if s.frameLength < length ∨ (¬ last ∧ length < s.frameLength) then
    .error (.misfit length s.frameLength)
  else if s.tag?.isSome ∧ last ∧ length = Frame.minLength then .ok false
  else if s.capacity < length then .error (.overCapacity length s.capacity)
  else .ok true

/-- Writes a frame, if it is to be written. A frame that is refused changes nothing. -/
def write (suite : Suite) (sheet : Sheet) : Action StreamFault Sender Unit := do
  let s ← get
  let some key := s.key? | throw .wiped
  if ← Action.ofExcept (s.judge sheet.last sheet.length) then
    let frame := Frame.sealWhole suite key s.written sheet.payload sheet.padding sheet.last
    put ((s.tag?.elim [] Vector.toList) ++ frame)
    modify fun s =>
      { s with tag? := none, written := s.written + 1, capacity := s.capacity - sheet.length }

/-- Writes a frame of which the length is reckoned in 64 bits; `none` if the program stops. If the low
bits of a length that is too great are kept, it is they that are judged. A frame that is then to be written
has no place for its payload, and the program stops at that. -/
def submit (o : Overflow) (suite : Suite) (sheet : Sheet) (s : Sender) :
    Option (Except StreamFault Unit × Sender) :=
  if s.Wiped then some (.error .wiped, s)
  else do
    let length ← sheet.reckon o
    match s.judge sheet.last length with
    | .error fault => some (.error fault, s)
    | .ok false => some (.ok (), s)
    | .ok true => if length = sheet.length then some ((write suite sheet).toExcept s) else none

/-- Flushes the sink. A fault of the sink wipes the keys. -/
def flush : Action StreamFault Sender Unit := do
  let some _ := (← get).key? | throw .wiped
  fun s =>
    match Sink.flush s.sink with
    | .ok () sink => .ok () { s with sink }
    | .error fault sink => .error (.io fault) { s with sink }.wipe

end Sender

end SealedStream
