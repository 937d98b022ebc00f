import SealedStream.Peer
import SealedStream.Proofs.Log
import SealedStream.Proofs.Recognition

/-!
# Runs of a station

A run is any sequence of acts of a keyring at its post, each at its own reading of the clock. The
keyring may be replaced by another at any time, and everything but the vault may be lost. Which
calls on the vault fail, and which secrets the directory refuses, is up to the gates before them.

## Main definitions

* `Station.Act` — one thing that happens.
* `Station.Report` — what it hands out.
* `Station.run`, `Station.log`, `Station.reports` — the station after a run, all that happened, and
  all that it handed out.
* `Station.Core` — what of a station matters to its secrets.
-/

namespace SealedStream

open Std

namespace Station

/-- What can happen at a station. -/
inductive Act where
  | enroll (link : Link) (latency : Nat) (handshake : Key)
  | start
  | stop
  | rotate
  /-- The agenda wakes the keyring up. -/
  | check
  | react (notice : Notice)
  | issue (pair : Pair)
  | recognize (bytes : Bytes)
  /-- The keyring goes and another one takes its place. -/
  | replace (serial : Nat)
  /-- Everything starts over except for the vault. -/
  | restart

/-- What an act hands out. -/
inductive Report where
  /-- The operation succeeded. -/
  | done
  /-- It failed, or there is nothing to say. -/
  | nothing
  /-- A ticket for a stream of our own, under the secret of the given identity. -/
  | opened (id : PeriodId) (ticket : Ticket)
  /-- A ticket for a stream of the peer, under the secret of the given identity. -/
  | answered (id : PeriodId) (ticket : Ticket)
deriving DecidableEq

/-- Reports whether an operation succeeded. -/
def settle {α : Type} (ended : Except KeyringFault α × Station) : Report × Station :=
  (match ended.1 with
    | .ok _ => .done
    | .error _ => .nothing, ended.2)

/-- Carries out an act. -/
def Act.perform (suite : Suite) (act : Act) (s : Station) : Report × Station :=
  match act with
  | .enroll link latency handshake => settle ((Station.enroll suite link latency handshake).toExcept s)
  | .start => settle ((Station.start suite).toExcept s)
  | .stop => (.nothing, s.stop)
  | .rotate => settle ((Station.rotate suite).toExcept s)
  | .check => (.nothing, s.check suite)
  | .react notice => (.nothing, s.react notice)
  | .issue pair =>
    let (answer, t) := (Station.issue pair).toExcept s
    (match (s.keyring.held[pair]?).bind (·.current), answer with
      | some current, .ok (some ticket) => .opened ⟨pair, current.period⟩ ticket
      | _, _ => .nothing, t)
  | .recognize bytes =>
    let (answer, registry) := (Registry.recognize suite bytes).toExcept s.post.toRegistry
    (match s.post.directory.lookup? bytes, answer with
      | some (id, _), .ok (some ticket) => .answered id ticket
      | _, _ => .nothing, { s with post.toRegistry := registry })
  | .replace serial =>
    (.nothing, { keyring := .stopped s.keyring.settings serial, post := s.detach.post })
  | .restart =>
    (.nothing,
      { keyring := .stopped s.keyring.settings 0
        post := Peer.postAt s.post.vault s.post.agenda.now })

/-- The station when the clock reads `now`. -/
def atTime (now : Nat) (s : Station) : Station :=
  { s with post.agenda := s.post.agenda.setClock now }

/-- Carries out an act at a reading of the clock. -/
def perform (suite : Suite) (now : Nat) (act : Act) (s : Station) : Report × Station :=
  act.perform suite (s.atTime now)

/-- The station after a run. -/
def run (suite : Suite) (acts : List (Nat × Act)) (s : Station) : Station :=
  acts.foldl (fun s act => (s.perform suite act.1 act.2).2) s

/-- What holds before a run and is preserved by each of its acts holds after it. -/
theorem run_induction {suite : Suite} {acts : List (Nat × Act)} {s : Station} (p : Station → Prop)
    (step : ∀ t now act, (now, act) ∈ acts → p t → p (t.perform suite now act).2) (start : p s) :
    p (s.run suite acts) := by
  induction acts generalizing s with
  | nil => exact start
  | cons act acts ih =>
    exact ih (fun t now act mem => step t now act (List.mem_cons_of_mem _ mem))
      (step s _ _ List.mem_cons_self start)

@[simp] theorem run_append_singleton (suite : Suite) (acts : List (Nat × Act)) (act : Nat × Act)
    (s : Station) :
    s.run suite (acts ++ [act]) = ((s.run suite acts).perform suite act.1 act.2).2 := by
  simp [run]

/-- What a run hands out, in order. -/
def reports (suite : Suite) : List (Nat × Act) → Station → List Report
  | [], _ => []
  | (now, act) :: acts, s =>
    let (report, s) := s.perform suite now act
    report :: reports suite acts s

/-- The acts of a run, each with the stations that it found and left. -/
abbrev log (suite : Suite) (acts : List (Nat × Act)) (s : Station) :
    List (Log.Entry Station (Nat × Act) Report) :=
  SealedStream.log (fun act s => s.perform suite act.1 act.2) acts s

theorem reports_eq_map_log (suite : Suite) (acts : List (Nat × Act)) (s : Station) :
    reports suite acts s = (log suite acts s).map (·.report) := by
  induction acts generalizing s with
  | nil => rfl
  | cons act acts ih => simp [reports, ih]

/-- An act finds the station as the acts before it left it. -/
theorem exists_run_of_mem_log {suite : Suite} {acts : List (Nat × Act)} {s : Station}
    {e : Log.Entry Station (Nat × Act) Report} (mem : e ∈ log suite acts s) :
    ∃ earlier later, acts = earlier ++ e.act :: later ∧ e.before = s.run suite earlier := by
  induction acts generalizing s with
  | nil => simp at mem
  | cons act acts ih =>
    rcases List.mem_cons.1 mem with rfl | mem
    · exact ⟨[], acts, rfl, rfl⟩
    · obtain ⟨earlier, later, rfl, before⟩ := ih mem
      exact ⟨act :: earlier, later, rfl, before⟩

/-! ## What an act can do -/

/-- The parts of a station that matter to its secrets. -/
structure Core where
  vault : Vault
  tolerance : Nat
  latencies : ExtTreeMap Transport Nat
  held : ExtTreeMap Pair Trio
  unlisted : ExtTreeSet PeriodId
  directory : Directory
  /-- The calls that the vault turns away. -/
  outage : Nat → VaultCall → Option StoreFault
  /-- The secrets that the directory refuses. -/
  refusal : Nat → PeriodSecret → Option CryptoFault

/-- The parts of a station that matter to its secrets. -/
def core (s : Station) : Core where
  vault := s.post.vault.vault
  outage := s.post.vault.gate.verdict
  tolerance := s.keyring.settings.tolerance
  latencies := s.keyring.latencies
  held := s.keyring.held
  unlisted := s.keyring.unlisted
  directory := s.post.directory
  refusal := s.post.intake.verdict

/-- All held secrets. -/
def Core.secrets (c : Core) : List PeriodSecret := c.held.values.flatMap Trio.secrets

/-- The directory refuses no secret. -/
def Core.Willing (c : Core) : Prop := ∀ call s, c.refusal call s = none

/-- The vault can be written to, and turns no call away. -/
def Core.Reliable (c : Core) : Prop :=
  c.vault.writable = true ∧ ∀ call kind, c.outage call kind = none

/-- The directory with some more secrets. -/
def listAllIn (suite : Suite) (secrets : List PeriodSecret) (d : Directory) : Directory :=
  secrets.foldl (fun d s => d.add suite s) d

/-- The directory without some secrets. -/
def unlistAllIn (ids : List PeriodId) (d : Directory) : Directory :=
  ids.foldl (fun d id => d.remove id) d

/-- The rows with the secrets that a rollover derives. -/
def stored (r : Rollover) (rows : ExtTreeMap PeriodId PeriodSecret) :
    ExtTreeMap PeriodId PeriodSecret :=
  r.created.foldl Vault.put rows

/-- The rows after a rollover. -/
def persisted (r : Rollover) (rows : ExtTreeMap PeriodId PeriodSecret) :
    ExtTreeMap PeriodId PeriodSecret :=
  r.retired.foldl (·.erase ·) (stored r rows)

end Station

end SealedStream
