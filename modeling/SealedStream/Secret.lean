import SealedStream.SeenWindow
import SealedStream.Suite

/-!
# Period secrets and stream tickets

A secret serves one link for one period. It is kept together with the number of the next stream to
open under it and the numbers of the streams that the peer has opened. A ticket holds what is
needed to write or read one stream.
-/

namespace SealedStream

/-- The secret of a link in one period, with its two stream counters. -/
structure PeriodSecret where
  link : Link
  period : Nat
  key : Key
  /-- The number of the next stream opened under the secret. -/
  outgoing : Nat
  /-- The numbers of the peer's streams that were received. -/
  incoming : SeenWindow
deriving DecidableEq, Repr

namespace PeriodSecret

/-- A secret under which no stream was opened yet. -/
def fresh (link : Link) (period : Nat) (key : Key) : PeriodSecret :=
  ⟨link, period, key, 0, .empty⟩

/-- The name of the secret. -/
def id (s : PeriodSecret) : PeriodId := ⟨s.link.toPair, s.period⟩

/-- The pair that the secret belongs to. -/
def pair (s : PeriodSecret) : Pair := s.link.toPair

end PeriodSecret

/-- What is needed to write or read one stream: the secret it belongs to, its number under that
secret, and the side of the local peer. -/
structure Ticket extends Pair where
  key : Key
  stream : Nat
  side : Side
deriving DecidableEq, Repr

end SealedStream
