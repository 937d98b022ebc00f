import SealedStream.Directory
import SealedStream.Stream.Opener
import SealedStream.Stream.Source

/-!
# Reading a stream

A byte stream keeps its order, so a receiver takes only the next frame. Every frame but the last has
the frame length; the last one ends with the input. Any fault wipes the key.

## Main definitions

* `Receiver.ofTicket` — reads the answer on a stream of our own.
* `Receiver.accept` — reads a stream that the peer opened, told by its tag.
* `Receiver.next`, `Receiver.reads` — the next frame, and what several reads answer.
-/

namespace SealedStream

/-- The reading end of a stream. -/
structure Receiver where
  source : Source
  opener : Opener
  /-- The number of the next frame. -/
  number : Nat
  frameLength : Nat
  pair : Pair
  /-- The number of the stream under its secret. -/
  stream : Nat
  /-- The last frame was read. -/
  finished : Bool
deriving DecidableEq, Repr

namespace Receiver

/-- Reads the frames that the peer writes on the stream of a ticket. -/
def ofTicket (suite : Suite) (source : Source) (ticket : Ticket) (frameLength : Nat) :
    Except StreamFault Receiver := do
  demandFrameLength frameLength
  return {
    source
    opener := .ofTicket suite ticket
    number := 0
    frameLength
    pair := ticket.toPair
    stream := ticket.stream
    finished := false }

/-- Reads the tag of a stream that the peer opened and finds the stream's secret. -/
def accept (suite : Suite) (source : Source) (frameLength : Nat) :
    Action StreamFault Registry Receiver := do
  Action.ofExcept (demandFrameLength frameLength)
  match Source.exactly 16 source with
  | .error fault _ => throw fault
  | .ok tag rest =>
    let found ← Action.focus id (fun r _ => r) StreamFault.ofLookup (Registry.recognize suite tag)
    let some ticket := found | throw .unknownTag
    Action.ofExcept (ofTicket suite rest ticket frameLength)

/-- An action on the source of the stream. -/
def onSource {α : Type} (act : Action StreamFault Source α) : Action StreamFault Receiver α :=
  Action.focus source (fun source r => { r with source }) id act

/-- The sealed body of the next frame. The last frame's body reaches to the end of the input. -/
def sealedBody (last : Bool) : Action StreamFault Receiver Bytes := do
  let frameLength := (← get).frameLength
  let limit := frameLength - Frame.sealedHeaderLength
  if last then
    let sealed ← onSource (Source.atMost (limit + 1))
    if limit < sealed.length then throw (.frame (.tooLong frameLength))
    return sealed
  else onSource (Source.exactly limit)

/-- Reads one frame and opens it. -/
def readFrame (suite : Suite) : Action StreamFault Receiver Frame := do
  let sealedHeader ← onSource (Source.exactly Frame.sealedHeaderLength)
  let r ← get
  let header ← Action.ofExcept (r.opener.headerAt suite r.number sealedHeader)
  let sealed ← sealedBody header.last
  let (frame, opener) ← Action.ofExcept (r.opener.body suite r.number header sealed)
  modify fun r => { r with opener }
  return frame

/-- The next frame, or `none` once the last was read. -/
def next (suite : Suite) : Action StreamFault Receiver (Option Frame) := do
  let r ← get
  if r.opener.Wiped then throw .wiped
  if r.finished then return none
  let frame ← tryCatch (readFrame suite) fun fault => do
    modify fun r => { r with opener := r.opener.wipe }
    throw fault
  modify fun r => { r with number := r.number + 1, finished := frame.last }
  return some frame

/-- What a number of reads in a row answer, each with whether the last frame was read by then. -/
def reads (suite : Suite) (n : Nat) (r : Receiver) :
    List (Except StreamFault (Option Frame) × Bool) :=
  match n with
  | 0 => []
  | n + 1 =>
    let (answer, after) := (next suite).toExcept r
    (answer, after.finished) :: after.reads suite n

end Receiver

end SealedStream
