import SealedStream.Proofs.Agenda
import SealedStream.Proofs.Station.Duty

/-!
# Runs of a peer

A run of a peer is any sequence of calls on its keyring, notices that are sent, and times that go by.
Nothing but the agenda of the peer wakes its keyring up.

The keyring keeps its post in order: only a running keyring is told of notices, and only its check is
on the agenda beside the notices that wait for a keyring.

## Main definitions

* `Peer.Act`, `Peer.run` — what can happen at a peer, and the peer after a run.
* `Station.wake` — what a job makes of a keyring and its post.
* `Station.Duty.Orderly` — the bus and the agenda hold nothing that is left over.

## Main statements

* `Peer.calm_host` — no job changes the agenda.
* `Peer.orderly_run` — a peer is always in order.
-/

namespace SealedStream

open Std SealedStream.Action

namespace Station

/-- Changes the agenda of the post. -/
def onAgenda (f : Agenda Job → Agenda Job) (s : Station) : Station :=
  { s with post.agenda := f s.post.agenda }

@[simp] theorem keyring_onAgenda (f : Agenda Job → Agenda Job) (s : Station) :
    (s.onAgenda f).keyring = s.keyring := rfl

@[simp] theorem vault_onAgenda (f : Agenda Job → Agenda Job) (s : Station) :
    (s.onAgenda f).post.vault = s.post.vault := rfl

/-- What a job makes of a keyring and its post. -/
def wake (suite : Suite) (job : Job) (s : Station) : Station :=
  if s.keyring.serial = job.serial then
    match job with
    | .check _ => s.check suite
    | .react _ notice => s.react notice
  else s

theorem duty_wake {suite : Suite} {job : Job} {s : Station} :
    (s.wake suite job).duty = s.duty := by
  unfold wake
  split
  · cases job with
    | check => exact duty_check
    | react serial notice => exact duty_react notice
  · rfl

/-- What an entry of the agenda makes of a keyring and its post. -/
def runEntry (suite : Suite) (due : Due) (entry : Entry Job) (s : Station) : Station :=
  match entry.every with
  | none => s.wake suite entry.job
  | some period =>
    ((s.onAgenda (.begin due.id)).wake suite entry.job).onAgenda (.finish due entry period)

/-- It ties the keyring to its post as before, and may be queued again. -/
theorem duty_runEntry {suite : Suite} {due : Due} {entry : Entry Job} {s : Station} :
    (s.runEntry suite due entry).duty =
      { s.duty with
        agenda := entry.every.elim s.post.agenda fun period =>
          (s.post.agenda.begin due.id).finish due entry period } := by
  have finished (period : Nat) (t : Station) : (t.onAgenda (.finish due entry period)).duty =
      { t.duty with agenda := t.duty.agenda.finish due entry period } := rfl
  unfold runEntry
  cases entry.every with
  | none => exact duty_wake
  | some period =>
    rw [finished, duty_wake]
    rfl

/-- An entry of the agenda is the check of the keyring, or it is a notice that waits for some keyring. -/
def Duty.Expects (d : Duty) (x : Due × Entry Job) : Prop :=
  d.task = some x.1.id ∧ (∃ serial, x.2.job = .check serial) ∨
    d.task ≠ some x.1.id ∧ ∃ serial notice, x.2 = ⟨.react serial notice, none⟩

/-- Only a running keyring is told of notices, and only its check is on the agenda beside the notices
that wait. -/
structure Duty.Orderly (d : Duty) : Prop where
  heard : ∀ x ∈ d.bus.listeners, d.listener = some x.1
  expected : ∀ x ∈ d.agenda.entries, d.Expects x
  numbered : ∀ x ∈ d.agenda.entries, x.1.id < d.agenda.nextId
  task_lt : ∀ id, d.task = some id → id < d.agenda.nextId
  idle : d.running = false → d.listener = none ∧ d.task = none
  still : ∀ id, id ∉ d.agenda.running

namespace Duty.Orderly

variable {d : Duty} (orderly : d.Orderly)

include orderly

/-- Nobody is told of notices at the post of a keyring that is not running. -/
theorem listeners_eq_nil (idle : d.running = false) : d.bus.listeners = [] := by
  refine List.eq_nil_iff_forall_not_mem.2 fun x mem => ?_
  have listens := orderly.heard x mem
  rw [(orderly.idle idle).1] at listens
  cases listens

/-- Only notices wait at the post of a keyring that is not running. -/
theorem of_idle (idle : d.running = false) :
    ∀ x ∈ d.agenda.entries, ∃ serial notice, x.2 = ⟨.react serial notice, none⟩ := by
  intro x mem
  rcases orderly.expected x mem with ⟨task, -⟩ | ⟨-, notice⟩
  · rw [(orderly.idle idle).2] at task
    cases task
  · exact notice

/-- Another agenda is in order if only notices are queued on it besides, under new numbers. -/
theorem onAgenda {a : Agenda Job} (later : d.agenda.nextId ≤ a.nextId) (still : ∀ id, id ∉ a.running)
    (queued : ∀ x ∈ a.entries, (∃ y ∈ d.agenda.entries, x.1.id = y.1.id ∧ x.2 = y.2) ∨
      (d.agenda.nextId ≤ x.1.id ∧ x.1.id < a.nextId) ∧
        ∃ serial notice, x.2 = ⟨.react serial notice, none⟩) :
    Duty.Orderly { d with agenda := a } where
  heard := orderly.heard
  expected x mem := by
    rcases queued x mem with ⟨y, mem, id, entry⟩ | ⟨⟨new, -⟩, notice⟩
    · have expects := orderly.expected y mem
      unfold Duty.Expects at expects ⊢
      rwa [id, entry]
    · exact .inr ⟨fun task => absurd (orderly.task_lt _ task) (Nat.not_lt.2 new), notice⟩
  numbered x mem := by
    rcases queued x mem with ⟨y, mem, id, -⟩ | ⟨⟨-, lt⟩, -⟩
    · exact id ▸ (orderly.numbered y mem).trans_le later
    · exact lt
  task_lt id task := (orderly.task_lt id task).trans_le later
  idle := orderly.idle
  still := still

/-- Running what is first on the agenda keeps the order. -/
theorem runEntry {target : Nat} {due : Due} {entry : Entry Job} {rest : Agenda Job}
    (next : d.agenda.popDue? target = some (due, entry, rest)) :
    Duty.Orderly { d with
      agenda := entry.every.elim (rest.reach due.time) fun period =>
        ((rest.reach due.time).begin due.id).finish due entry period } := by
  obtain ⟨-, entries, kept⟩ := Agenda.of_popDue?_eq_some next
  have still : ∀ id, id ∉ rest.running := by
    rw [kept]
    exact orderly.still
  have later : d.agenda.nextId ≤ rest.nextId := by rw [kept]
  have old : ∀ x ∈ rest.entries, x ∈ d.agenda.entries := fun x mem =>
    entries ▸ List.mem_cons_of_mem _ mem
  cases every : entry.every with
  | none => exact orderly.onAgenda later still fun x mem => .inl ⟨x, old x mem, rfl, rfl⟩
  | some period =>
    refine orderly.onAgenda ?_ (fun id mem => ?_) fun x mem => .inl ?_
    · rw [Option.elim_some, Agenda.finish]
      split <;> exact later
    · have mem : id ∈ ((rest.reach due.time).begin due.id).running.erase due.id := by
        rw [Option.elim_some, Agenda.finish] at mem
        split at mem <;> exact mem
      simp only [Agenda.begin, ExtTreeSet.mem_erase, ExtTreeSet.mem_insert] at mem
      exact mem.2.elim mem.1 (still id)
    · rcases Agenda.mem_entries_finish mem with rfl | mem
      · exact ⟨(due, entry), entries ▸ List.mem_cons_self, rfl, rfl⟩
      · exact ⟨x, old x mem, rfl, rfl⟩

theorem attached (idle : d.running = false) : d.attached.Orderly where
  heard x mem := by
    simp only [Duty.attached, Bus.add, orderly.listeners_eq_nil idle, List.nil_append,
      List.mem_singleton] at mem ⊢
    rw [mem]
  expected x mem := by
    rcases Agenda.mem_entries_enter mem with rfl | mem
    · exact .inl ⟨rfl, _, rfl⟩
    · refine .inr ⟨fun new => ?_, orderly.of_idle idle x mem⟩
      exact (orderly.numbered x mem).ne (Option.some.inj new).symm
  numbered x mem := by
    rcases Agenda.mem_entries_enter mem with rfl | mem
    · exact Nat.lt_succ_self _
    · exact Nat.lt_succ_of_lt (orderly.numbered x mem)
  task_lt id task := by
    cases task
    exact Nat.lt_succ_self _
  idle running := by cases running
  still := orderly.still

/-- Only the check is taken off the agenda. -/
theorem entries_detached : d.detached.agenda.entries =
    d.agenda.entries.filter fun x => d.task ≠ some x.1.id := by
  simp only [Duty.detached]
  cases task : d.task with
  | none => simp
  | some id =>
    rw [Option.elim_some, Agenda.entries_cancel (orderly.still id)]
    simp [eq_comm]

theorem detached : d.detached.Orderly where
  heard x mem := by
    simp only [Duty.detached] at mem
    cases listens : d.listener with
    | none =>
      rw [listens] at mem
      exact absurd (orderly.heard x mem) (by simp [listens])
    | some id =>
      rw [listens] at mem
      obtain ⟨mem, other⟩ := List.mem_filter.1 mem
      have same := orderly.heard x mem
      simp_all
  expected x mem := by
    rw [orderly.entries_detached, List.mem_filter, decide_eq_true_iff] at mem
    rcases orderly.expected x mem.1 with ⟨task, -⟩ | ⟨-, notice⟩
    · exact absurd task mem.2
    · exact .inr ⟨by simp [Duty.detached], notice⟩
  numbered x mem := by
    rw [orderly.entries_detached, List.mem_filter] at mem
    have same : d.detached.agenda.nextId = d.agenda.nextId := by
      simp only [Duty.detached]
      cases d.task <;> simp
    exact same ▸ orderly.numbered x mem.1
  task_lt id task := by cases task
  idle _ := ⟨rfl, rfl⟩
  still id := by
    simp only [Duty.detached]
    cases d.task with
    | none => exact orderly.still id
    | some task =>
      rw [Option.elim_some, Agenda.cancel, if_neg (orderly.still task)]
      exact orderly.still id

end Duty.Orderly

end Station

namespace Peer

variable {suite : Suite} {p : Peer} {s : Station}

/-- What can happen at a peer. -/
inductive Act where
  /-- An act of the keyring, when the clock of the peer reads what it reads. -/
  | call (act : Station.Act)
  | send (notice : Notice)
  /-- Time goes by, and the jobs that fall due are carried out. -/
  | advance (ms : Nat)
  | setClock (now : Nat)
  | moveClock (ms : Nat)

/-- Carries out an act. -/
def perform (suite : Suite) (act : Act) (p : Peer) : Peer :=
  match act with
  | .call act => p.alter fun s => (act.perform suite s).2
  | .send notice => p.send notice
  | .advance ms => p.advance suite ms
  | .setClock now => p.onAgenda (.setClock now)
  | .moveClock ms => p.onAgenda (.moveClock ms)

/-- The peer after a run. -/
def run (suite : Suite) (acts : List Act) (p : Peer) : Peer :=
  acts.foldl (fun p act => p.perform suite act) p

/-! ## The station of a peer -/

@[simp] theorem station?_leave : (p.leave s).station? = some s := rfl

theorem post_eq (there : p.station? = some s) : p.post = s.post := by
  obtain ⟨k, -, rfl⟩ := Option.map_eq_some_iff.1 there
  rfl

theorem keyring?_eq (there : p.station? = some s) : p.keyring? = some s.keyring := by
  obtain ⟨k, held, rfl⟩ := Option.map_eq_some_iff.1 there
  exact held

theorem station?_alter (f : Station → Station) : (p.alter f).station? = p.station?.map f := by
  unfold alter
  cases there : p.station? with
  | none => exact there
  | some s => rfl

theorem station?_onAgenda (f : Agenda Job → Agenda Job) :
    (p.onAgenda f).station? = p.station?.map (Station.onAgenda f) := by
  simp only [station?, onAgenda, Option.map_map]
  rfl

theorem station?_runJob (job : Job) :
    (p.runJob suite job).station? = p.station?.map (Station.wake suite job) :=
  station?_alter _

theorem agenda_runJob (job : Job) : (p.runJob suite job).post.agenda = p.post.agenda := by
  cases there : p.station? with
  | none => rw [runJob, alter, there]
  | some s =>
    have after : (p.runJob suite job).station? = some (s.wake suite job) := by
      rw [station?_runJob, there, Option.map_some]
    rw [post_eq after, post_eq there]
    exact congrArg Station.Duty.agenda Station.duty_wake

theorem calm_host : (host suite).Calm where
  agenda_setAgenda _ _ := rfl
  agenda_run _ job _ := agenda_runJob job

/-! ## Order at the post -/

theorem station?_runEntry {due : Due} {entry : Entry Job} :
    ((host suite).runEntry due entry p).station? =
      p.station?.map (Station.runEntry suite due entry) := by
  unfold Host.runEntry
  split <;> rename_i every
  · have once : Station.runEntry suite due entry = Station.wake suite entry.job := by
      funext s
      simp only [Station.runEntry, every]
    rw [once]
    exact station?_runJob _
  · rename_i period
    have again : Station.runEntry suite due entry =
        Station.onAgenda (.finish due entry period) ∘ Station.wake suite entry.job ∘
          Station.onAgenda (.begin due.id) := by
      funext s
      simp only [Station.runEntry, every, Function.comp_apply]
    change (((p.onAgenda _).runJob suite entry.job).onAgenda _).station? = _
    rw [station?_onAgenda, station?_runJob, station?_onAgenda, again, Option.map_map, Option.map_map,
      Function.comp_assoc]

/-- Nothing has happened yet at a post where nothing has happened. -/
theorem orderly_fresh {settings : Settings} {serial : Nat} {vault : GuardedVault} {now : Nat} :
    (Station.mk (.stopped settings serial) (postAt vault now)).duty.Orderly where
  heard := by simp [Station.duty, postAt, Bus.empty]
  expected := by simp [Station.duty, postAt]
  numbered := by simp [Station.duty, postAt]
  task_lt _ task := by cases task
  idle _ := ⟨rfl, rfl⟩
  still := by simp [Station.duty, postAt, Agenda.startingAt]

/-- The post is in order. -/
def Orderly (p : Peer) : Prop := ∃ s, p.station? = some s ∧ s.duty.Orderly

theorem Orderly.hear {notice : Notice} {serial : Nat} (orderly : p.Orderly) :
    (p.hear notice serial).Orderly := by
  obtain ⟨s, there, orderly⟩ := orderly
  refine ⟨_, by rw [Peer.hear, station?_alter, there, Option.map_some], ?_⟩
  split
  · refine orderly.onAgenda (Nat.le_succ _) orderly.still fun x mem => ?_
    rcases Agenda.mem_entries_enter mem with rfl | mem
    · exact .inr ⟨⟨Nat.le_refl _, Nat.lt_succ_self _⟩, serial, notice, rfl⟩
    · exact .inl ⟨x, mem, rfl, rfl⟩
  · exact orderly

theorem Orderly.send {notice : Notice} (orderly : p.Orderly) : (p.send notice).Orderly := by
  unfold Peer.send Bus.deliver
  generalize p.post.bus.listeners = listeners
  induction listeners generalizing p with
  | nil => exact orderly
  | cons listener listeners ih => exact ih orderly.hear

/-- A job that falls due finds the post as it is, and its agenda without the job. -/
theorem station?_next {due : Due} {entry : Entry Job} {a : Agenda Job} (there : p.station? = some s) :
    ((host suite).runEntry due entry ((host suite).setAgenda a p)).station? =
      some ((s.onAgenda fun _ => a).runEntry suite due entry) := by
  rw [station?_runEntry]
  change (p.onAgenda fun _ => a).station?.map _ = _
  rw [station?_onAgenda, there, Option.map_some, Option.map_some]

theorem Orderly.next {target : Nat} {due : Due} {entry : Entry Job} {rest : Agenda Job}
    (orderly : p.Orderly) (next : p.post.agenda.popDue? target = some (due, entry, rest)) :
    ((host suite).runEntry due entry ((host suite).setAgenda (rest.reach due.time) p)).Orderly := by
  obtain ⟨s, there, orderly⟩ := orderly
  rw [post_eq there] at next
  exact ⟨_, station?_next there, Station.duty_runEntry ▸ orderly.runEntry next⟩

theorem Orderly.drain {fuel target : Nat} (orderly : p.Orderly) :
    ((host suite).drain fuel target p).Orderly :=
  Host.drain_induction Orderly (fun _ _ _ _ orderly next => orderly.next next) orderly

/-- Time goes by until a clock reading. -/
theorem station?_advance {ms target : Nat} (reading : p.post.agenda.now + Count.wrap ms = target) :
    (p.advance suite ms).station? =
      ((host suite).drain (p.post.agenda.dueRuns target) target p).station?.map
        (Station.onAgenda (Agenda.reach target)) := by
  subst reading
  exact station?_onAgenda _

/-- When no more time goes by, nothing that is due is left on the agenda. -/
theorem late_of_drained {target : Nat} {t : Station}
    (there : ((host suite).drain (p.post.agenda.dueRuns target) target p).station? = some t) :
    ∀ x ∈ t.post.agenda.entries, target < x.1.time := by
  rw [← Agenda.popDue?_eq_none_iff, ← post_eq there]
  exact calm_host.popDue?_drain (Nat.le_refl _)

theorem Orderly.advance {ms : Nat} (orderly : p.Orderly) : (p.advance suite ms).Orderly := by
  obtain ⟨s, there, orderly⟩ := orderly.drain
  refine ⟨_, (station?_advance rfl).trans (congrArg _ there), ?_⟩
  exact orderly.onAgenda (Nat.le_refl _) orderly.still fun x mem => .inl ⟨x, mem, rfl, rfl⟩

theorem Orderly.perform {act : Act} (orderly : p.Orderly) : (p.perform suite act).Orderly := by
  cases act with
  | send notice => exact orderly.send
  | advance ms => exact orderly.advance
  | call act =>
    obtain ⟨s, there, orderly⟩ := orderly
    refine ⟨_, by rw [Peer.perform, station?_alter, there, Option.map_some], ?_⟩
    have duty := Station.duty_perform suite act s
    cases act with
    | start =>
      rcases duty with same | ⟨idle, attached⟩
      · exact same ▸ orderly
      · exact attached ▸ orderly.attached idle
    | stop =>
      simp only at duty
      rw [duty]
      split
      · exact orderly.detached
      · exact orderly
    | replace serial =>
      have detached := orderly.detached
      exact duty ▸ { detached with }
    | restart => exact duty ▸ orderly_fresh
    | _ => exact duty ▸ orderly
  | setClock now =>
    obtain ⟨s, there, orderly⟩ := orderly
    refine ⟨_, by rw [Peer.perform, station?_onAgenda, there, Option.map_some], ?_⟩
    exact orderly.onAgenda (Nat.le_refl _) orderly.still fun x mem => .inl ⟨x, mem, rfl, rfl⟩
  | moveClock ms =>
    obtain ⟨s, there, orderly⟩ := orderly
    refine ⟨_, by rw [Peer.perform, station?_onAgenda, there, Option.map_some], ?_⟩
    exact orderly.onAgenda (Nat.le_refl _) orderly.still fun x mem => .inl ⟨x, mem, rfl, rfl⟩

/-- A peer is always in order. -/
theorem orderly_run {vault : GuardedVault} {now : Nat} {settings : Settings} {acts : List Act} :
    ((begin vault now settings).run suite acts).Orderly := by
  have first : (begin vault now settings).Orderly := ⟨_, rfl, orderly_fresh⟩
  unfold run
  generalize begin vault now settings = p at first
  induction acts generalizing p with
  | nil => exact first
  | cons act acts ih => exact ih _ first.perform

end Peer

end SealedStream
