import SealedStream.Agenda.Host
import SealedStream.Bus.Basic
import SealedStream.Directory
import SealedStream.Rotation.Rollover

/-!
# The keyring

The keyring of a peer holds the live secrets of all its pairs. It works at a post, where it finds the
vault and the directory, the notices it listens to, and the agenda that wakes it up.

A post outlives its keyring. Jobs and listeners therefore name the keyring they belong to by its
serial number, and are without effect once that keyring is gone.

## Main definitions

* `Keyring`, `Post`, `Station` — a keyring, its surroundings, and both together.
* `Station.persist` — stores what a rollover changes.
* `Station.listSecret`, `Station.listSecrets` — lists secrets in the directory.
-/

namespace SealedStream

open Std

/-- What a keyring is set up with, in milliseconds. -/
structure Settings where
  /-- The time between two rotation checks. -/
  checkInterval : Nat
  /-- The greatest difference between the clocks of two peers. -/
  tolerance : Nat
deriving DecidableEq, Repr

/-- A check every minute; clocks may differ by an hour. -/
def Settings.standard : Settings := ⟨60000, 3600000⟩

instance : Inhabited Settings := ⟨.standard⟩

/-- The secrets a peer holds. -/
structure Keyring where
  settings : Settings
  /-- Tells this keyring from others at the same post. -/
  serial : Nat
  running : Bool
  /-- The latencies of the known transports, in milliseconds. -/
  latencies : ExtTreeMap Transport Nat
  held : ExtTreeMap Pair Trio
  listener : Option Nat
  task : Option Nat
  /-- Held secrets that the directory refused; every rotation tries them again. -/
  unlisted : ExtTreeSet PeriodId

namespace Keyring

/-- A keyring that was never started. -/
def stopped (settings : Settings) (serial : Nat) : Keyring :=
  ⟨settings, serial, false, ∅, ∅, none, none, ∅⟩

/-- All held secrets, ordered by pair and place. -/
def secrets (k : Keyring) : List PeriodSecret := k.held.values.flatMap Trio.secrets

/-- The periods held for a pair, oldest place first. -/
def periods? (k : Keyring) (pair : Pair) : Option (List (Option Nat)) :=
  (k.held[pair]?).map Trio.periods

end Keyring

/-- What the agenda of a post can wake a keyring up for. -/
inductive Job where
  /-- Check whether secrets are due for rotation. -/
  | check (serial : Nat)
  /-- React to a notice. -/
  | react (serial : Nat) (notice : Notice)
deriving DecidableEq, Repr, Inhabited

/-- The keyring that a job is meant for. -/
def Job.serial : Job → Nat
  | check serial => serial
  | react serial _ => serial

/-- The surroundings of a keyring. -/
structure Post extends Registry where
  /-- Stands before the directory when secrets are added. -/
  intake : Gate PeriodSecret CryptoFault
  /-- The listeners, by the serial number of their keyring. -/
  bus : Bus Nat
  agenda : Agenda Job

/-- A keyring at its post. -/
structure Station where
  keyring : Keyring
  post : Post

namespace Station

/-- An operation of a keyring. -/
abbrev Operation (α : Type) := Action KeyringFault Station α

/-- Changes the keyring. -/
def onKeyring {ε : Type} (f : Keyring → Keyring) : Action ε Station Unit :=
  modify fun s => { s with keyring := f s.keyring }

/-- Changes the directory. -/
def onDirectory {ε : Type} (f : Directory → Directory) : Action ε Station Unit :=
  modify fun s => { s with post.directory := f s.post.directory }

/-- A call on the vault. -/
def onVault {α : Type} (kind : VaultCall) (act : Vault.Call α) : Operation α :=
  Action.focus (fun s => s.post.vault) (fun v s => { s with post.vault := v }) KeyringFault.store
    (GuardedVault.call kind act)

/-- The time on the clock. -/
def now : Operation Nat := return (← get).post.agenda.now

/-- Stores what a rollover adds and removes what it retires. -/
def persist (r : Rollover) : Operation Unit := do
  if r.created ≠ [] then onVault .add (Vault.add r.created)
  if r.retired ≠ [] then onVault .remove (Vault.remove r.retired)

/-- Lists a secret in the directory, if the directory does not refuse it. -/
def listSecret (suite : Suite) (s : PeriodSecret) : Action CryptoFault Station Unit := do
  Action.focus (fun s => s.post.intake) (fun g s => { s with post.intake := g }) id (Gate.pass s)
  onDirectory (Directory.add suite s)

/-- Lists secrets in the directory; gives the identities of those it refused and of the others. -/
def offer (suite : Suite) : List PeriodSecret → Operation (List PeriodId × List PeriodId)
  | [] => return ([], [])
  | s :: rest => do
    let refused ← fun station =>
      match listSecret suite s station with
      | .ok () station => .ok false station
      | .error _ station => .ok true station
    let (no, yes) ← offer suite rest
    return if refused then (s.id :: no, yes) else (no, s.id :: yes)

/-- Lists secrets in the directory and notes the refused ones. -/
def listSecrets (suite : Suite) (secrets : List PeriodSecret) : Operation Unit := do
  let (refused, listed) ← offer suite secrets
  onKeyring fun k =>
    { k with unlisted := (listed.foldl (·.erase ·) k.unlisted).insertMany refused }

end Station

end SealedStream
