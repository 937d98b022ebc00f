import SealedStream.Count

/-!
# The schedule of a link's secrets

A link counts its periods from its epoch. The secret of period `p` is created two periods before
its number says, waits one period as the new secret, serves one as the current one and one as the
old one, and is then dead:

    created       epoch + interval * (p - 2)
    activated     one interval later
    deactivated   one interval after that
    destroyed     one interval after that

So from the epoch on, three consecutive periods are live at any time. The first secrets are created
before the epoch, hence times are integers here.

The times of one secret are reckoned in 128 bits with a sign, and the current period in 64 bits. Long
periods and late secrets leave that range.

## Main definitions

* `Schedule.interval` — how long a period lasts.
* `Schedule.periodAt` — the current period at some time.
* `Schedule.Lifespan`, `Schedule.Lifespan.stageAt` — the times of one secret, and where it stands.
* `Schedule.periodOn`, `Schedule.lifespanOn` — both as they are reckoned.
-/

namespace SealedStream

/-- The three places in which a live secret stands, oldest first. -/
inductive Turn where
  | old
  | current
  | new
deriving DecidableEq, Repr, Inhabited

/-- All places, oldest first. -/
def Turn.all : List Turn := [.old, .current, .new]

/-- The period that stands in a place when `current` is the current one, if there is one. -/
def Turn.period (current : Nat) : Turn → Option Nat
  | .old => Count.pred? current
  | .current => some current
  | .new => Count.succ? current

namespace Schedule

/-- How long a period lasts, in milliseconds: the latency of the transport plus the tolerated
difference between clocks, of which the low 64 bits count. -/
def interval (latency tolerance : Nat) : Nat := Count.plus latency (Count.wrap tolerance)

/-- The period that is current at `now`; `none` before the epoch, or if periods have no length. -/
def periodAt (epoch interval now : Nat) : Option Nat :=
  if now < epoch ∨ interval = 0 then none else some ((now - epoch) / interval + 1)

/-- Where a secret stands. -/
inductive Stage where
  | notYetCreated
  | live (turn : Turn)
  | dead
deriving DecidableEq, Repr, Inhabited

/-- The times at which a secret changes its place, in milliseconds. -/
structure Lifespan where
  creation : Int
  activation : Int
  deactivation : Int
  destruction : Int
deriving DecidableEq, Repr

/-- The times of the secret of a period. -/
def lifespan (epoch interval period : Nat) : Lifespan :=
  let creation : Int := epoch + interval * ((period : Int) - 2)
  { creation
    activation := creation + interval
    deactivation := creation + interval + interval
    destruction := creation + interval + interval + interval }

/-- Where a secret stands at `now`. If times coincide, the latest place counts. -/
def Lifespan.stageAt (l : Lifespan) (now : Nat) : Stage :=
  if l.destruction ≤ now then .dead
  else if l.deactivation ≤ now then .live .old
  else if l.activation ≤ now then .live .current
  else if l.creation ≤ now then .live .new
  else .notYetCreated

/-! ## As reckoned -/

/-- The current period as it is reckoned; `none` if the program stops at it. -/
def periodOn (o : Overflow) (epoch interval now : Nat) : Option (Option Nat) :=
  match periodAt epoch interval now with
  | none => some none
  | some current => (o.count current).map some

/-- The times of the secret of a period as they are reckoned; `none` if the program stops at one. -/
def lifespanOn (o : Overflow) (epoch interval period : Nat) : Option Lifespan := do
  let shift ← o.signed (interval * ((period : Int) - 2))
  let creation ← o.signed (epoch + shift)
  let activation ← o.signed (creation + interval)
  let deactivation ← o.signed (activation + interval)
  let destruction ← o.signed (deactivation + interval)
  return { creation, activation, deactivation, destruction }

end Schedule

end SealedStream
