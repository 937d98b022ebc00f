import SealedStream.Count
import Std.Data.ExtTreeMap
import Std.Data.ExtTreeSet

/-!
# The agenda

An agenda is a clock that moves only when told to, with a queue of jobs. A job is due at a time and
runs once or again and again. Jobs run in order of their due time, those due together in the order
in which they were entered.

A repeating job is out of the queue while it runs. It may be cancelled meanwhile: a mark is then left,
and the job is not queued again.

Times are counts of 64 bits, and the sums that yield them are plain ones. An agenda keeps in mind that
one of them was too great.

## Main definitions

* `Agenda.enter`, `Agenda.cancel` — puts a job on the agenda, and takes it off.
* `Agenda.popDue?` — the next job that is due.
* `Agenda.begin`, `Agenda.finish` — brackets the run of a repeating job.
-/

namespace SealedStream

open Std

/-- When a job is due, and the number under which it was entered. -/
structure Due where
  time : Nat
  id : Nat
deriving DecidableEq, Repr, Inhabited

/-- Ordered by time, then by number. -/
instance : Ord Due := ⟨compareLex (compareOn Due.time) (compareOn Due.id)⟩

instance : TransOrd Due :=
  inferInstanceAs (TransCmp (compareLex (compareOn Due.time) (compareOn Due.id)))

instance : LawfulEqOrd Due where
  eq_of_compare {a b} h := by
    obtain ⟨h₁, h₂⟩ := compareLex_eq_eq.1 h
    cases a; cases b
    have h₁ := LawfulEqOrd.eq_of_compare h₁
    have h₂ := LawfulEqOrd.eq_of_compare h₂
    simp_all

/-- A job, and how long after each run it runs again, in milliseconds; `none` if it runs once. -/
structure Entry (τ : Type) where
  job : τ
  every : Option Nat
deriving DecidableEq, Repr, Inhabited

/-- A clock in milliseconds and the jobs that wait for it. -/
structure Agenda (τ : Type) where
  now : Nat
  /-- The number of the next job. -/
  nextId : Nat
  queue : ExtTreeMap Due (Entry τ)
  /-- The repeating jobs that are being run. -/
  running : ExtTreeSet Nat
  /-- Those of them that were cancelled. -/
  cancelled : ExtTreeSet Nat
  /-- A sum was too great for a time. The program stops at it, or goes on with the low bits if it was
  built so; either way what the agenda holds from then on is of no account. -/
  overflowed : Bool

namespace Agenda

variable {τ : Type}

/-- No jobs, and a clock that reads `now`. -/
def startingAt (now : Nat) : Agenda τ := ⟨now, 0, ∅, ∅, ∅, false⟩

instance : Inhabited (Agenda τ) := ⟨startingAt 0⟩

/-- Sets the clock, forward or back. -/
def setClock (now : Nat) (a : Agenda τ) : Agenda τ := { a with now }

/-- Moves the clock by `ms`. The clock has 64 bits and wraps around. -/
def moveClock (ms : Nat) (a : Agenda τ) : Agenda τ :=
  { a with now := Count.wrap (a.now + Count.wrap ms) }

/-- A sum that is to be a time was reckoned. -/
def reckon (time : Nat) (a : Agenda τ) : Agenda τ :=
  { a with overflowed := a.overflowed || Count.top < time }

/-- Moves the clock on to `time`, unless it is later already. -/
def reach (time : Nat) (a : Agenda τ) : Agenda τ := { a.reckon time with now := max a.now time }

/-- Enters a job that is due in `delay` milliseconds. Of delays and periods the low 64 bits count.
The number of the job is `a.nextId`. -/
def enter (delay : Nat) (every : Option Nat) (job : τ) (a : Agenda τ) : Agenda τ :=
  let time := a.now + Count.wrap delay
  { a.reckon time with
    nextId := a.nextId + 1
    queue := a.queue.insert ⟨time, a.nextId⟩ ⟨job, every.map Count.wrap⟩ }

/-- Takes a job off the agenda. A repeating job that is being run is marked instead. -/
def cancel (id : Nat) (a : Agenda τ) : Agenda τ :=
  if id ∈ a.running then { a with cancelled := a.cancelled.insert id }
  else { a with queue := a.queue.filter fun due _ => due.id ≠ id }

/-- The first job that is due at `target` or before, and the agenda without it. -/
def popDue? (target : Nat) (a : Agenda τ) : Option (Due × Entry τ × Agenda τ) :=
  match a.queue.minEntry? with
  | none => none
  | some (due, entry) =>
    if due.time ≤ target then some (due, entry, { a with queue := a.queue.erase due }) else none

/-- A repeating job begins to run. -/
def begin (id : Nat) (a : Agenda τ) : Agenda τ := { a with running := a.running.insert id }

/-- A repeating job has run: it is queued again one period later, unless it was cancelled. Periods
are at least one millisecond. -/
def finish (due : Due) (entry : Entry τ) (period : Nat) (a : Agenda τ) : Agenda τ :=
  let ended := { a with running := a.running.erase due.id }
  if due.id ∈ a.cancelled then { ended with cancelled := a.cancelled.erase due.id }
  else
    let time := due.time + max period 1
    { ended.reckon time with queue := a.queue.insert ⟨time, due.id⟩ entry }

/-- How often a queued job runs up to the time `target`. -/
def runsUntil (target : Nat) (due : Due) (entry : Entry τ) : Nat :=
  if target < due.time then 0
  else
    match entry.every with
    | none => 1
    | some period => (target - due.time) / max period 1 + 1

/-- How often the queued jobs run up to the time `target`. -/
def dueRuns (target : Nat) (a : Agenda τ) : Nat :=
  a.queue.foldl (fun n due entry => n + runsUntil target due entry) 0

end Agenda

end SealedStream
