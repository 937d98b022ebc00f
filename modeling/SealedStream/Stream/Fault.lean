import SealedStream.Fault
import SealedStream.Frame.Header

/-!
# Faults of streams

What can stop the writing or reading of a stream. Faults fall into classes: after some of them the
stream is dropped without a word to the peer, some end the stream, and some are misuse by the caller.

## Main definitions

* `StreamFault` — the causes, with `StreamFault.text` for their written form.
* `StreamFault.Silent`, `StreamFault.Fatal`, `StreamFault.Misuse` — the classes.
-/

namespace SealedStream

/-- A failure of what a stream is written to or read from. -/
structure IoFault where
  reason : String
  /-- The failure says that the input ended too early. -/
  atEnd : Bool
deriving DecidableEq, Repr, Inhabited

/-- Why a stream could not be written or read. -/
inductive StreamFault where
  | frame (fault : Frame.Fault)
  | io (fault : IoFault)
  /-- A header or body is not genuine. -/
  | forged
  /-- No listed secret has the tag. -/
  | unknownTag
  /-- The input ended before the last frame. -/
  | cutShort
  /-- The frame is longer than the frame length, or is shorter and not the last. -/
  | misfit (length frameLength : Nat)
  /-- The frame does not fit into what is left of the stream. -/
  | overCapacity (required remaining : Nat)
  | badFrameLength (length : Nat)
  /-- The keys were wiped after an earlier fault. -/
  | wiped
  | crypto (fault : CryptoFault)
  | store (fault : StoreFault)
deriving DecidableEq, Repr, Inhabited

namespace StreamFault

/-- The written form of a fault. -/
def text : StreamFault → String
  | frame fault => "frame error: " ++ fault.text
  | io fault => "i/o error: " ++ fault.reason
  | forged => "authentication failed"
  | unknownTag => "unrecognized tag"
  | cutShort => "unexpected end of stream"
  | misfit length frameLength =>
    "frame of " ++ toString length ++ " bytes does not fit frame length " ++ toString frameLength
  | overCapacity required remaining =>
    "frame of " ++ toString required ++ " bytes exceeds remaining capacity " ++ toString remaining
  | badFrameLength length => "invalid frame length " ++ toString length
  | wiped => "stream keys have been erased"
  | crypto fault => "crypto error: " ++ fault.text
  | store fault => "store error: " ++ fault.text

/-- The peer sent what cannot be authenticated; it is told nothing. -/
def Silent : StreamFault → Prop
  | forged | unknownTag | frame _ | crypto .opening | crypto .replay => True
  | _ => False

/-- The stream cannot go on. -/
def Fatal (fault : StreamFault) : Prop :=
  match fault with
  | io _ | cutShort | wiped | store _ => True
  | _ => fault.Silent

/-- The caller asked for what the stream cannot do; nothing was written. -/
def Misuse : StreamFault → Prop
  | misfit .. | overCapacity .. | badFrameLength _ => True
  | _ => False

instance : DecidablePred Silent := fun fault => by
  unfold Silent; split <;> infer_instance

instance : DecidablePred Fatal := fun fault => by
  unfold Fatal; split <;> infer_instance

instance : DecidablePred Misuse := fun fault => by
  unfold Misuse; split <;> infer_instance

/-- The stream fault that a failed lookup of the stream's tag is. -/
def ofLookup : LookupFault → StreamFault
  | .store fault => store fault
  | .crypto fault => crypto fault

end StreamFault

/-- Refuses a frame length that cannot hold an empty frame or exceeds the greatest one. -/
def demandFrameLength (length : Nat) : Except StreamFault Unit :=
  if Frame.minLength ≤ length ∧ length ≤ Frame.maxLength then pure ()
  else throw (.badFrameLength length)

end SealedStream
