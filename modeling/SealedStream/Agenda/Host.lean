import SealedStream.Agenda.Basic

/-!
# Running the jobs of an agenda

A host is a state that contains an agenda and knows how to run its jobs. A job may change the whole
state, the agenda included.

## Main definitions

* `Host.drain` — runs the jobs that are due, one after the other.
* `Host.advanceTo`, `Host.advance` — moves the clock on and runs what falls due on the way, every job
  at its own time.
-/

namespace SealedStream

/-- How to find the agenda in a state, and how to run a job given its number. -/
structure Host (σ τ : Type) where
  agenda : σ → Agenda τ
  setAgenda : Agenda τ → σ → σ
  run : Nat → τ → σ → σ

namespace Host

variable {σ τ : Type} (h : Host σ τ)

/-- Changes the agenda in a state. -/
def modifyAgenda (f : Agenda τ → Agenda τ) (s : σ) : σ := h.setAgenda (f (h.agenda s)) s

/-- Runs a job that was taken from the queue. -/
def runEntry (due : Due) (entry : Entry τ) (s : σ) : σ :=
  match entry.every with
  | none => h.run due.id entry.job s
  | some period =>
    h.modifyAgenda (Agenda.finish due entry period)
      (h.run due.id entry.job (h.modifyAgenda (Agenda.begin due.id) s))

/-- Runs the jobs due up to `target` in order, at most `fuel` of them. The clock moves on to the time
at which each is due. -/
def drain : (fuel target : Nat) → σ → σ
  | 0, _, s => s
  | fuel + 1, target, s =>
    match (h.agenda s).popDue? target with
    | none => s
    | some (due, entry, rest) =>
      drain fuel target (h.runEntry due entry (h.setAgenda (rest.reach due.time) s))

/-- Runs the jobs due up to `target`, at most `fuel` of them, and moves the clock on to it. -/
def advanceTo (fuel target : Nat) (s : σ) : σ :=
  h.modifyAgenda (Agenda.reach target) (h.drain fuel target s)

/-- Moves the clock on by `ms` milliseconds for jobs that leave the agenda alone, so that the number
of runs is known beforehand. A time to be reached that is too great counts as overflowed, like any other
sum. -/
def advance (ms : Nat) (s : σ) : σ :=
  let target := (h.agenda s).now + Count.wrap ms
  h.advanceTo ((h.agenda s).dueRuns target) target s

end Host

end SealedStream
