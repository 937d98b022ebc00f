import SealedStream.Agenda.Host

/-!
# Scripted jobs

Jobs given as data: a job writes its label and the time into a log and then takes steps of its own,
which may enter and cancel jobs and move the clock, to any depth. Beside the log a history is kept of all
jobs that were entered, were cancelled and began to run.

## Main definitions

* `Agenda.Step` — one step.
* `Agenda.Note` — one line of the history.
* `Agenda.Rehearsal.perform` — takes a step.
-/

namespace SealedStream.Agenda

open Std

/-- A step on an agenda. -/
inductive Step where
  /-- Enters a job that runs once. -/
  | once (label : String) (delay : Nat) (steps : List Step)
  /-- Enters a repeating job; if `only` is given, the job takes its steps on that run only. -/
  | every (label : String) (delay period : Nat) (steps : List Step) (only : Option Nat)
  | cancel (id : Nat)
  | advance (ms : Nat)
  | runDue
  | setClock (now : Nat)
  | moveClock (ms : Nat)

/-- A job that writes its label and takes steps. -/
structure Script where
  label : String
  steps : List Step
  only : Option Nat

/-- What happened to the job of a number. -/
inductive Note where
  | entered (id : Nat) (repeats : Bool)
  | cancelled (id : Nat)
  | began (id : Nat)
deriving DecidableEq, Repr

/-- An agenda of scripted jobs, the log they write, how often each has run, and the history. -/
structure Rehearsal where
  agenda : Agenda Script
  log : List (String × Nat)
  runs : ExtTreeMap Nat Nat
  history : List Note

namespace Rehearsal

/-- No jobs and an empty log. -/
def startingAt (now : Nat) : Rehearsal := ⟨.startingAt now, [], ∅, []⟩

/-- Runs a scripted job, given how a step is taken. -/
def runScript (take : Step → Rehearsal → Rehearsal) (id : Nat) (job : Script) (r : Rehearsal) :
    Rehearsal :=
  let run := (r.runs[id]?).getD 0 + 1
  let logged : Rehearsal :=
    { r with
      log := r.log ++ [(job.label, r.agenda.now)]
      runs := r.runs.insert id run
      history := r.history ++ [.began id] }
  match job.only with
  | some only => if run = only then job.steps.foldl (fun r step => take step r) logged else logged
  | none => job.steps.foldl (fun r step => take step r) logged

/-- Scripted jobs run on their own agenda. -/
def host (take : Step → Rehearsal → Rehearsal) : Host Rehearsal Script where
  agenda := agenda
  setAgenda a r := { r with agenda := a }
  run := runScript take

/-- The line of the history that a step makes. -/
def note? (step : Step) (r : Rehearsal) : Option Note :=
  match step with
  | .once .. => some (.entered r.agenda.nextId false)
  | .every .. => some (.entered r.agenda.nextId true)
  | .cancel id => some (.cancelled id)
  | _ => none

/-- Takes a step. Nested runs and the runs of one advance are each bounded by `fuel`. -/
def perform : (fuel : Nat) → Step → Rehearsal → Rehearsal
  | 0, _, r => r
  | fuel + 1, step, r =>
    let r : Rehearsal := { r with history := r.history ++ (note? step r).toList }
    let onAgenda (f : Agenda Script → Agenda Script) : Rehearsal := { r with agenda := f r.agenda }
    let advanceBy (ms : Nat) : Rehearsal :=
      (host (perform fuel)).advanceTo fuel (r.agenda.now + Count.wrap ms) r
    match step with
    | .once label delay steps => onAgenda (enter delay none ⟨label, steps, none⟩)
    | .every label delay period steps only =>
      onAgenda (enter delay (some period) ⟨label, steps, only⟩)
    | .cancel id => onAgenda (cancel id)
    | .advance ms => advanceBy ms
    | .runDue => advanceBy 0
    | .setClock now => onAgenda (setClock now)
    | .moveClock ms => onAgenda (moveClock ms)

/-- The number that a step gives to the job it enters. -/
def answer (step : Step) (r : Rehearsal) : Option Nat :=
  match step with
  | .once .. | .every .. => some r.agenda.nextId
  | _ => none

end Rehearsal

end SealedStream.Agenda
