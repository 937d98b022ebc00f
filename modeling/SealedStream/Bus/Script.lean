import SealedStream.Bus.Basic

/-!
# Scripted listeners

Listeners given as data: a listener writes its label and the notice into a log and then takes steps
of its own, which may sign listeners up and off and send notices, to any depth.

## Main definitions

* `Bus.Step` — one step.
* `Bus.Rehearsal.perform` — takes a step.
-/

namespace SealedStream.Bus

/-- A step on a bus. -/
inductive Step where
  | add (label : String) (steps : List Step)
  | remove (id : Nat)
  | send (notice : Notice)

/-- A listener that writes its label and takes steps. -/
structure Script where
  label : String
  steps : List Step

/-- A bus of scripted listeners and the log they write. -/
structure Rehearsal where
  bus : Bus Script
  log : List (String × Notice)

namespace Rehearsal

/-- Nobody listens and the log is empty. -/
def empty : Rehearsal := ⟨.empty, []⟩

/-- Lets a scripted listener hear a notice, given how a step is taken. -/
def hear (take : Step → Rehearsal → Rehearsal) (notice : Notice) (listener : Script)
    (r : Rehearsal) : Rehearsal :=
  listener.steps.foldl (fun r step => take step r)
    { r with log := r.log ++ [(listener.label, notice)] }

/-- Takes a step. Nested notices are bounded by `fuel`. -/
def perform : (fuel : Nat) → Step → Rehearsal → Rehearsal
  | 0, _, r => r
  | fuel + 1, step, r =>
    match step with
    | .add label steps => { r with bus := r.bus.add ⟨label, steps⟩ }
    | .remove id => { r with bus := r.bus.remove id }
    | .send notice => r.bus.deliver (hear (perform fuel) notice) r

/-- The number that a step gives to the listener it signs up. -/
def answer (step : Step) (r : Rehearsal) : Option Nat :=
  match step with
  | .add .. => some r.bus.nextId
  | _ => none

end Rehearsal

end SealedStream.Bus
