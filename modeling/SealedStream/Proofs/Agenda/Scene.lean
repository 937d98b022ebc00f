import SealedStream.Proofs.Agenda.Queue
import SealedStream.Proofs.Log

/-!
# Jobs in progress

A job may do to the agenda what can be done to it from outside: it enters and cancels jobs, itself
included, sets the clock, and moves it on, so that other jobs run inside its own run. What is going on
is told by a stack of moves of the clock and of jobs in progress. From outside and in the jobs, anything
may be done at any time, and a move of the clock may end before all the jobs have run.

## Main definitions

* `Agenda.Scene` — an agenda and what is going on.
* `Agenda.Move`, `Agenda.Scene.perform` — what may happen next.
* `Agenda.Scene.Change` — what a move comes to.
* `Agenda.Scene.Sound` — jobs that are queued or in progress have numbers of their own, and the marks are
  those of jobs in progress.

## Main statements

* `Agenda.Scene.change_perform` — every move is a change.
* `Agenda.Scene.Change.sound` — a change keeps a scene sound.
* `Agenda.Scene.Sound.atRest` — while no job is being run, the agenda is at rest.
-/

namespace SealedStream.Agenda

open Std

variable {τ : Type}

/-- Something that is going on: the clock is being moved on to a time, or a job is being run. -/
inductive Frame (τ : Type) where
  | advance (target : Nat)
  | job (due : Due) (entry : Entry τ)

/-- The job that is being run. -/
def Frame.job? : Frame τ → Option (Due × Entry τ)
  | .advance _ => none
  | .job due entry => some (due, entry)

/-- An agenda and what is going on, the innermost first. -/
structure Scene (τ : Type) where
  agenda : Agenda τ
  stack : List (Frame τ)

/-- What may happen next. -/
inductive Move (τ : Type) where
  | enter (delay : Nat) (every : Option Nat) (job : τ)
  | cancel (id : Nat)
  | setClock (now : Nat)
  | moveClock (ms : Nat)
  /-- The clock begins to be moved on. -/
  | advance (ms : Nat)
  /-- While the clock is being moved on, the next job that is due begins to run. -/
  | start
  /-- The innermost job has run, or the clock has been moved on. -/
  | leave

namespace Scene

variable {s t : Scene τ} {move : Move τ} {report : Option (Due × Entry τ)}

/-- No jobs, and a clock that reads `now`. -/
def startingAt (now : Nat) : Scene τ := ⟨.startingAt now, []⟩

/-- The jobs in progress, the innermost first. -/
def jobs (s : Scene τ) : List (Due × Entry τ) := s.stack.filterMap Frame.job?

/-- The job that begins to run by a move, and what the move leaves. -/
def perform (move : Move τ) (s : Scene τ) : Option (Due × Entry τ) × Scene τ :=
  match move, s.stack with
  | .enter delay every job, _ => (none, { s with agenda := s.agenda.enter delay every job })
  | .cancel id, _ => (none, { s with agenda := s.agenda.cancel id })
  | .setClock now, _ => (none, { s with agenda := s.agenda.setClock now })
  | .moveClock ms, _ => (none, { s with agenda := s.agenda.moveClock ms })
  | .advance ms, stack => (none, ⟨s.agenda, .advance (s.agenda.now + Count.wrap ms) :: stack⟩)
  | .start, .advance target :: stack =>
    match s.agenda.popDue? target with
    | some (due, entry, rest) =>
      (some (due, entry),
        ⟨(rest.reach due.time).launch due entry, .job due entry :: .advance target :: stack⟩)
    | none => (none, s)
  | .leave, .job due entry :: stack => (none, ⟨s.agenda.land due entry, stack⟩)
  | .leave, .advance target :: stack => (none, ⟨s.agenda.reach target, stack⟩)
  -- There is nothing to be started or to be left.
  | .start, _ | .leave, [] => (none, s)

/-! ### One move -/

/-- What a move comes to. -/
inductive Change (s t : Scene τ) : Move τ → Option (Due × Entry τ) → Prop where
  | enter {delay : Nat} {every : Option Nat} {job : τ} (agenda : t.agenda = s.agenda.enter delay every job)
      (jobs : t.jobs = s.jobs) : Change s t (.enter delay every job) none
  | cancel {id : Nat} (agenda : t.agenda = s.agenda.cancel id) (jobs : t.jobs = s.jobs) :
      Change s t (.cancel id) none
  | start {x : Due × Entry τ} (entries : s.agenda.entries = x :: t.agenda.entries)
      (nextId : t.agenda.nextId = s.agenda.nextId)
      (mem_running_iff : ∀ id, id ∈ t.agenda.running ↔
        id ∈ s.agenda.running ∨ x.1.id = id ∧ x.2.every.isSome)
      (cancelled : t.agenda.cancelled = s.agenda.cancelled) (jobs : t.jobs = x :: s.jobs) :
      Change s t .start (some x)
  | land {due : Due} {entry : Entry τ} (agenda : t.agenda = s.agenda.land due entry)
      (jobs : s.jobs = (due, entry) :: t.jobs) : Change s t .leave none
  /-- The clock is moved or there is nothing to be done. -/
  | quiet {calm : Move τ} (uncancelled : ∀ id, calm ≠ .cancel id)
      (unentered : ∀ delay every job, calm ≠ .enter delay every job)
      (entries : t.agenda.entries = s.agenda.entries) (nextId : t.agenda.nextId = s.agenda.nextId)
      (running : t.agenda.running = s.agenda.running)
      (cancelled : t.agenda.cancelled = s.agenda.cancelled) (jobs : t.jobs = s.jobs) :
      Change s t calm none

theorem change_perform (move : Move τ) (s : Scene τ) :
    Change s (perform move s).2 move (perform move s).1 := by
  have still (uncancelled : ∀ id, move ≠ .cancel id)
      (unentered : ∀ delay every job, move ≠ .enter delay every job) : Change s s move none :=
    .quiet uncancelled unentered rfl rfl rfl rfl rfl
  obtain ⟨a, stack⟩ := s
  cases move with
  | enter delay every job => exact .enter rfl rfl
  | cancel id => exact .cancel rfl rfl
  | setClock now | moveClock ms | advance ms => exact .quiet nofun nofun rfl rfl rfl rfl rfl
  | start =>
    cases stack with
    | nil => exact still nofun nofun
    | cons frame stack =>
      cases frame with
      | job due entry => exact still nofun nofun
      | advance target =>
        simp only [perform]
        cases next : a.popDue? target with
        | none => exact still nofun nofun
        | some found =>
          obtain ⟨due, entry, rest⟩ := found
          obtain ⟨-, entries, same⟩ := of_popDue?_eq_some next
          refine .start ?_ ?_ (fun id => ?_) ?_ rfl
          · simpa using entries
          · rw [nextId_launch, same]
            rfl
          · rw [mem_running_launch, running_reach, same]
          · rw [cancelled_launch, cancelled_reach, same]
  | leave =>
    cases stack with
    | nil => exact still nofun nofun
    | cons frame stack =>
      cases frame with
      | job due entry => exact .land rfl rfl
      | advance target => exact .quiet nofun nofun rfl rfl rfl rfl rfl

/-! ### Sound scenes -/

/-- Jobs that are queued or in progress have numbers of their own. Repeating jobs in progress are noted,
and only these are marked. -/
structure Sound (s : Scene τ) : Prop where
  fresh : ∀ x ∈ s.agenda.entries, x.1.id < s.agenda.nextId
  fresh_jobs : ∀ x ∈ s.jobs, x.1.id < s.agenda.nextId
  distinct : s.agenda.Distinct
  distinct_jobs : (s.jobs.map (·.1.id)).Nodup
  apart : ∀ x ∈ s.jobs, ∀ y ∈ s.agenda.entries, y.1.id ≠ x.1.id
  mem_running_iff : ∀ id, id ∈ s.agenda.running ↔ ∃ x ∈ s.jobs, x.1.id = id ∧ x.2.every.isSome
  marked : ∀ id ∈ s.agenda.cancelled, id ∈ s.agenda.running

theorem sound_startingAt (now : Nat) : (startingAt now : Scene τ).Sound where
  fresh := by simp [startingAt]
  fresh_jobs := nofun
  distinct := by simp [startingAt, Distinct]
  distinct_jobs := .nil
  apart := nofun
  mem_running_iff := by simp [startingAt, Agenda.startingAt, jobs]
  marked := by simp [startingAt, Agenda.startingAt]

theorem Sound.enter {delay : Nat} {every : Option Nat} {job : τ} (sound : s.Sound)
    (agenda : t.agenda = s.agenda.enter delay every job) (jobs : t.jobs = s.jobs) : t.Sound := by
  obtain ⟨fresh, fresh_jobs, distinct, distinct_jobs, apart, mem_running_iff, marked⟩ := sound
  have nextId : t.agenda.nextId = s.agenda.nextId + 1 := by rw [agenda]; rfl
  have running : t.agenda.running = s.agenda.running := by rw [agenda]; rfl
  have cancelled : t.agenda.cancelled = s.agenda.cancelled := by rw [agenda]; rfl
  refine ⟨fun x mem => ?_, fun x mem => ?_, by rw [agenda]; exact distinct.enter fresh, by rwa [jobs],
    fun x mem y mem' => ?_, by rwa [running, jobs], by rwa [cancelled, running]⟩
  · rw [agenda, mem_entries_enter_iff fresh] at mem
    rcases mem with rfl | mem
    · exact nextId ▸ Nat.lt_succ_self _
    · exact nextId ▸ (fresh x mem).trans (Nat.lt_succ_self _)
  · exact nextId ▸ (fresh_jobs x (jobs ▸ mem)).trans (Nat.lt_succ_self _)
  · rw [jobs] at mem
    rw [agenda, mem_entries_enter_iff fresh] at mem'
    rcases mem' with rfl | mem'
    · exact (Nat.ne_of_lt (fresh_jobs x mem)).symm
    · exact apart x mem y mem'

theorem Sound.cancel {id : Nat} (sound : s.Sound) (agenda : t.agenda = s.agenda.cancel id)
    (jobs : t.jobs = s.jobs) : t.Sound := by
  obtain ⟨fresh, fresh_jobs, distinct, distinct_jobs, apart, mem_running_iff, marked⟩ := sound
  have within : ∀ x ∈ t.agenda.entries, x ∈ s.agenda.entries := fun x mem => by
    rw [agenda, mem_entries_cancel_iff] at mem
    exact mem.1
  have running : t.agenda.running = s.agenda.running := by rw [agenda, running_cancel]
  have nextId : t.agenda.nextId = s.agenda.nextId := by rw [agenda, nextId_cancel]
  refine ⟨fun x mem => nextId ▸ fresh x (within x mem), by rwa [nextId, jobs],
    distinct.of_subset within, by rwa [jobs],
    fun x mem y mem' => apart x (jobs ▸ mem) y (within y mem'), by rwa [running, jobs],
    fun id mem => ?_⟩
  rw [agenda, mem_cancelled_cancel] at mem
  rw [running]
  rcases mem with mem | ⟨rfl, mem⟩
  · exact marked id mem
  · exact mem

theorem Sound.start {x : Due × Entry τ} (sound : s.Sound)
    (entries : s.agenda.entries = x :: t.agenda.entries)
    (nextId : t.agenda.nextId = s.agenda.nextId)
    (running : ∀ id, id ∈ t.agenda.running ↔ id ∈ s.agenda.running ∨ x.1.id = id ∧ x.2.every.isSome)
    (cancelled : t.agenda.cancelled = s.agenda.cancelled) (jobs : t.jobs = x :: s.jobs) : t.Sound := by
  obtain ⟨fresh, fresh_jobs, distinct, distinct_jobs, apart, mem_running_iff, marked⟩ := sound
  have others := distinct.ne_of_entries_eq entries
  have within : ∀ y ∈ t.agenda.entries, y ∈ s.agenda.entries := fun y mem =>
    entries ▸ List.mem_cons_of_mem _ mem
  rw [entries, List.forall_mem_cons] at fresh
  refine ⟨by rw [nextId]; exact fresh.2, ?_, distinct.of_subset within, ?_, ?_, ?_,
    fun id mem => (running id).2 (.inl (marked id (cancelled ▸ mem)))⟩
  · rw [jobs, nextId, List.forall_mem_cons]
    exact ⟨fresh.1, fresh_jobs⟩
  · rw [jobs, List.map_cons, List.nodup_cons]
    refine ⟨fun mem => ?_, distinct_jobs⟩
    obtain ⟨y, mem, same⟩ := List.mem_map.1 mem
    exact apart y mem x (entries ▸ List.mem_cons_self) same.symm
  · rw [jobs, List.forall_mem_cons]
    exact ⟨others, fun y mem z mem' => apart y mem z (within z mem')⟩
  · intro id
    rw [running, jobs, mem_running_iff, List.exists_mem_cons_iff, or_comm]

theorem Sound.land {due : Due} {entry : Entry τ} (sound : s.Sound)
    (agenda : t.agenda = s.agenda.land due entry) (jobs : s.jobs = (due, entry) :: t.jobs) :
    t.Sound := by
  obtain ⟨fresh, fresh_jobs, distinct, distinct_jobs, apart, mem_running_iff, marked⟩ := sound
  rw [jobs, List.map_cons, List.nodup_cons] at distinct_jobs
  rw [jobs, List.forall_mem_cons] at fresh_jobs apart
  have queued (x : Due × Entry τ) : x ∈ t.agenda.entries → x.1.id = due.id ∨ x ∈ s.agenda.entries := by
    rw [agenda, mem_entries_land_iff apart.1]
    rintro (⟨-, period, -, rfl⟩ | mem)
    · exact .inl rfl
    · exact .inr mem
  have nextId : t.agenda.nextId = s.agenda.nextId := by rw [agenda, nextId_land]
  refine ⟨fun x mem => ?_, nextId ▸ fresh_jobs.2, by rw [agenda]; exact distinct.land apart.1,
    distinct_jobs.2, fun x mem y mem' => ?_, fun id => ?_, fun id mem => ?_⟩
  · rw [nextId]
    rcases queued x mem with same | mem
    · exact same ▸ fresh_jobs.1
    · exact fresh x mem
  · rcases queued y mem' with same | mem'
    · rw [same]
      exact fun same => distinct_jobs.1 (List.mem_map.2 ⟨x, mem, same.symm⟩)
    · exact apart.2 x mem y mem'
  · rw [agenda, mem_running_land, mem_running_iff, jobs, List.exists_mem_cons_iff]
    constructor
    · rintro ⟨⟨same, repeats⟩ | found, once⟩
      · rw [once same] at repeats
        cases repeats
      · exact found
    · rintro ⟨x, mem, rfl, repeats⟩
      refine ⟨.inr ⟨x, mem, rfl, repeats⟩, fun same => ?_⟩
      exact absurd (List.mem_map.2 ⟨x, mem, same.symm⟩) distinct_jobs.1
  · rw [agenda, mem_cancelled_land] at mem
    rw [agenda, mem_running_land]
    exact ⟨marked id mem.1, mem.2⟩

theorem Change.sound (change : Change s t move report) (sound : s.Sound) : t.Sound := by
  cases change with
  | enter agenda jobs => exact sound.enter agenda jobs
  | cancel agenda jobs => exact sound.cancel agenda jobs
  | start entries nextId running cancelled jobs =>
    exact sound.start entries nextId running cancelled jobs
  | land agenda jobs => exact sound.land agenda jobs
  | quiet _ _ entries nextId running cancelled jobs =>
    obtain ⟨fresh, fresh_jobs, distinct, distinct_jobs, apart, mem_running_iff, marked⟩ := sound
    exact
      { fresh := by rwa [entries, nextId]
        fresh_jobs := by rwa [jobs, nextId]
        distinct := by rwa [Distinct, entries]
        distinct_jobs := by rwa [jobs]
        apart := by rwa [jobs, entries]
        mem_running_iff := by rwa [running, jobs]
        marked := by rwa [cancelled, running] }

/-- The scene that a run of moves leaves. -/
def after (moves : List (Move τ)) (s : Scene τ) : Scene τ :=
  moves.foldl (fun s move => (perform move s).2) s

theorem sound_after (moves : List (Move τ)) (sound : s.Sound) : (after moves s).Sound := by
  induction moves generalizing s with
  | nil => exact sound
  | cons move moves ih => exact ih ((change_perform move s).sound sound)

/-- While no job is being run, none is noted or marked. -/
theorem Sound.atRest (sound : s.Sound) (idle : s.jobs = []) : s.agenda.AtRest := by
  have unnoted (id : Nat) : id ∉ s.agenda.running := by simp [sound.mem_running_iff, idle]
  refine ⟨sound.distinct, ?_, ?_⟩
  · ext id
    simp [unnoted]
  · ext id
    simpa using fun mem => unnoted id (sound.marked id mem)

end Scene

end SealedStream.Agenda
