import SealedStream.Keyring.Basic

/-!
# Starting and stopping a keyring

A keyring that starts takes up the stored secrets, brings them up to date before any of them is
listed, and asks to be told of notices and to be woken for checks. A keyring that stops forgets every
secret; the vault is left as it is.
-/

namespace SealedStream.Station

open Std

/-- Lists all the given secrets in the directory. If it refuses one, the directory is emptied and
the operation fails. -/
def listAll (suite : Suite) (secrets : List PeriodSecret) : Operation Unit := fun s =>
  match secrets.forM (listSecret suite) s with
  | .ok () s => .ok () s
  | .error fault s => .error (.crypto fault) { s with post.directory := .empty }

/-- Signs the keyring up for notices and enters its check on the agenda. Checks are at least one
millisecond apart. -/
def attach (s : Station) : Station :=
  let interval := max s.keyring.settings.checkInterval 1
  { keyring :=
      { s.keyring with
        listener := some s.post.bus.nextId
        task := some s.post.agenda.nextId }
    post :=
      { s.post with
        bus := s.post.bus.add s.keyring.serial
        agenda := s.post.agenda.enter interval (some interval) (.check s.keyring.serial) } }

/-- Signs the keyring off from notices and cancels its check. -/
def detach (s : Station) : Station :=
  { keyring := { s.keyring with listener := none, task := none }
    post :=
      { s.post with
        bus := s.keyring.listener.elim s.post.bus fun id => s.post.bus.remove id
        agenda := s.keyring.task.elim s.post.agenda fun id => s.post.agenda.cancel id } }

/-- Takes up the stored secrets and starts to rotate them. -/
def start (suite : Suite) : Operation Unit := do
  if (← get).keyring.running then throw .alreadyRunning
  let secrets ← onVault .secrets Vault.secrets
  let latencies ← onVault .transports Vault.transports
  let tolerance := (← get).keyring.settings.tolerance
  let rollover ← Action.ofExcept (Rollover.plan suite (← now) latencies tolerance secrets)
  persist rollover
  listAll suite (rollover.held.values.flatMap Trio.secrets)
  modify attach
  onKeyring fun k => { k with running := true, latencies, held := rollover.held }

/-- Stops rotating and forgets every secret. A keyring that is not running stays as it is. -/
def stop (s : Station) : Station :=
  if s.keyring.running then
    let detached := s.detach
    { keyring :=
        { detached.keyring with running := false, latencies := ∅, held := ∅, unlisted := ∅ }
      post := { detached.post with directory := .empty } }
  else s

end SealedStream.Station
