import SealedStream.Frame.Sealed
import SealedStream.Secret
import SealedStream.Stream.Fault

/-!
# Opening frames

Frames do not carry their number. An opener tries the numbers that its window has not seen, so frames
may arrive out of order as far as the window reaches. A number is marked only when the body is found
genuine as well, so a refused frame leaves the opener as it was.

## Main definitions

* `Opener.header`, `Opener.headerAt` — opens a header under some unseen number, or under a given one.
* `Opener.body` — opens the body that belongs to a header.
* `Opener.frame` — opens a whole frame.
-/

namespace SealedStream

/-- The reading end of a stream's frames. -/
structure Opener where
  /-- The frame key; `none` once it was wiped. -/
  key? : Option Key
  /-- The frames opened so far. -/
  window : SeenWindow
deriving DecidableEq, Repr

namespace Opener

/-- Opens what the peer writes on the stream of a ticket. -/
def ofTicket (suite : Suite) (ticket : Ticket) : Opener :=
  ⟨some (suite.frameKey ticket.side.other ticket.stream ticket.key), .empty⟩

/-- Forgets the frame key. -/
def wipe (o : Opener) : Opener := { o with key? := none }

/-- The keys were wiped. -/
def Wiped (o : Opener) : Prop := o.key? = none

instance (o : Opener) : Decidable o.Wiped := inferInstanceAs (Decidable (_ = _))

/-- The key, for a sealed header of the right length. -/
def headerKey (o : Opener) (sealed : Bytes) : Except StreamFault Key := do
  let some key := o.key? | throw .wiped
  if sealed.length ≠ Frame.sealedHeaderLength then
    throw (.frame (.tooShort Frame.sealedHeaderLength sealed.length))
  return key

/-- The header sealed under a number; `none` if it was not sealed under that number. -/
def headerUnder (suite : Suite) (key : Key) (number : Nat) (sealed : Bytes) :
    Except StreamFault (Option Frame.Header) :=
  match Frame.openPart? suite key number .header sealed with
  | none => pure none
  | some plain =>
    match Frame.Header.decode plain with
    | .ok header => pure (some header)
    | .error fault => throw (.frame fault)

/-- The first of some numbers under which a header opens, and the header. -/
def tryNumbers (suite : Suite) (key : Key) (sealed : Bytes) :
    List Nat → Except StreamFault (Nat × Frame.Header)
  | [] => throw .forged
  | number :: numbers => do
    match ← headerUnder suite key number sealed with
    | some header => return (number, header)
    | none => tryNumbers suite key sealed numbers

/-- Opens a header under the first unseen number that fits. -/
def header (suite : Suite) (o : Opener) (sealed : Bytes) :
    Except StreamFault (Nat × Frame.Header) := do
  let key ← o.headerKey sealed
  tryNumbers suite key sealed o.window.unseen

/-- Opens a header that must have the given number. -/
def headerAt (suite : Suite) (o : Opener) (number : Nat) (sealed : Bytes) :
    Except StreamFault Frame.Header := do
  let key ← o.headerKey sealed
  if ¬ o.window.Covers number ∨ o.window.Seen number then throw .forged
  let some header ← headerUnder suite key number sealed | throw .forged
  return header

/-- Opens the body that belongs to a header, and marks the number of the frame. -/
def body (suite : Suite) (o : Opener) (number : Nat) (header : Frame.Header) (sealed : Bytes) :
    Except StreamFault (Frame × Opener) := do
  let some key := o.key? | throw .wiped
  if sealed.length < macLength then throw (.frame (.tooShort macLength sealed.length))
  let available := sealed.length - macLength
  let announced := header.payload.toNat
  if available < announced then throw (.frame (.payloadMissing announced available))
  let some plain := Frame.openPart? suite key number .body sealed | throw .forged
  if (plain.drop announced).any (· ≠ 0) then throw (.frame .padding)
  let some (window, _) := o.window.mark? number | throw (.crypto .replay)
  return (⟨number, plain.take announced, header.last⟩, { o with window })

/-- Opens a whole frame. -/
def frame (suite : Suite) (o : Opener) (sealed : Bytes) : Except StreamFault (Frame × Opener) := do
  if sealed.length < Frame.sealedHeaderLength then
    throw (.frame (.tooShort Frame.minLength sealed.length))
  let (number, header) ← o.header suite (sealed.take Frame.sealedHeaderLength)
  o.body suite number header (sealed.drop Frame.sealedHeaderLength)

end Opener

end SealedStream
