import SealedStream.Keyring.Enroll
import SealedStream.Keyring.Issue
import SealedStream.Keyring.Life
import SealedStream.Keyring.React
import SealedStream.Keyring.Rotate

/-!
# A peer

A peer is a post with at most one keyring at it. Its agenda wakes the keyring for checks, and for the
notices sent on its bus: a notice is not acted on when it is sent but when the agenda runs next.

## Main definitions

* `Peer.operate` — an operation of the keyring.
* `Peer.send`, `Peer.advance` — a notice is sent; time goes by.
* `Peer.dismiss`, `Peer.replace`, `Peer.restart` — the keyring goes, is replaced by another, and the
  whole peer starts over with what its vault has kept.
-/

namespace SealedStream

/-- A post and its keyring, if it has one. -/
structure Peer where
  post : Post
  keyring? : Option Keyring
  settings : Settings
  /-- The serial number of the next keyring. -/
  nextSerial : Nat

namespace Peer

/-- A post at which nothing has happened, with a vault that may hold something. -/
def postAt (vault : GuardedVault) (now : Nat) : Post :=
  { vault, directory := .empty, intake := .clear, bus := .empty, agenda := .startingAt now }

/-- A peer with a keyring that was never started. -/
def begin (vault : GuardedVault) (now : Nat) (settings : Settings) : Peer :=
  { post := postAt vault now
    keyring? := some (.stopped settings 0)
    settings
    nextSerial := 1 }

/-- The keyring at its post. -/
def station? (p : Peer) : Option Station := p.keyring?.map fun k => ⟨k, p.post⟩

/-- The peer after its keyring and post have changed. -/
def leave (p : Peer) (s : Station) : Peer := { p with post := s.post, keyring? := some s.keyring }

/-- Carries out an operation of the keyring; `none` if there is no keyring. -/
def operate {α : Type} (act : Station.Operation α) (p : Peer) :
    Option (Except KeyringFault α × Peer) :=
  p.station?.map fun s =>
    let (answer, s) := act.toExcept s
    (answer, p.leave s)

/-- Lets the keyring change together with its post, if there is a keyring. -/
def alter (f : Station → Station) (p : Peer) : Peer :=
  match p.station? with
  | some s => p.leave (f s)
  | none => p

/-! ## Notices and jobs -/

/-- Carries out a job. A job of a keyring that is gone is without effect. -/
def runJob (suite : Suite) (job : Job) (p : Peer) : Peer :=
  p.alter fun s =>
    if s.keyring.serial = job.serial then
      match job with
      | .check _ => s.check suite
      | .react _ notice => s.react notice
    else s

/-- The keyring with the given serial number, if it is still there, will react to a notice when the
agenda runs next. -/
def hear (notice : Notice) (serial : Nat) (p : Peer) : Peer :=
  p.alter fun s =>
    if s.keyring.serial = serial then
      { s with post.agenda := s.post.agenda.enter 0 none (.react serial notice) }
    else s

/-- Sends a notice to all who listen. -/
def send (notice : Notice) (p : Peer) : Peer := p.post.bus.deliver (hear notice) p

/-- A peer runs the jobs of its own agenda. They leave the agenda alone. -/
def host (suite : Suite) : Host Peer Job where
  agenda p := p.post.agenda
  setAgenda a p := { p with post.agenda := a }
  run _ job p := p.runJob suite job

/-- Lets `ms` milliseconds go by and carries out the jobs that fall due. -/
def advance (suite : Suite) (ms : Nat) (p : Peer) : Peer := (host suite).advance ms p

/-- Changes the clock without carrying out any job. -/
def onAgenda (f : Agenda Job → Agenda Job) (p : Peer) : Peer :=
  { p with post.agenda := f p.post.agenda }

/-! ## Losing and replacing the keyring -/

/-- The keyring goes: it signs off from notices and its check is cancelled. The directory stays. -/
def dismiss (p : Peer) : Peer :=
  match p.station? with
  | some s => { p with post := s.detach.post, keyring? := none }
  | none => p

/-- The keyring goes, and another takes its place at the same post. -/
def replace (p : Peer) : Peer :=
  let p := p.dismiss
  { p with keyring? := some (.stopped p.settings p.nextSerial), nextSerial := p.nextSerial + 1 }

/-- Everything starts over except for the vault. -/
def restart (now : Nat) (p : Peer) : Peer := begin p.post.vault now p.settings

end Peer

end SealedStream
