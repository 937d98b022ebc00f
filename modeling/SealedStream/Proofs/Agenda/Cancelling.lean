import SealedStream.Agenda.Script
import SealedStream.Proofs.Agenda.Scene

/-!
# Cancelling is final

A job that was cancelled does not begin to run again, whoever cancelled it and whatever else was being
run. Cancelling takes no other job off the agenda and keeps none from being queued again: which jobs are
still to run is told by what was entered, was cancelled and began to run. When no job is being run, nothing
is left behind of all that was cancelled.

## Main definitions

* `Agenda.Awaited` — by the history, the job of a number is still to run.
* `Agenda.SameBut` — agendas that differ in one job at most.
* `Agenda.Scene.Gone` — the job of a number does not run again.
* `Agenda.Scene.Waits` — the job of a number is queued, or will be when it has run.
* `Agenda.Scene.CancelsForGood` — what the log of a run tells of cancelling.

## Main statements

* `Agenda.Scene.Change.gone` — a job that is gone stays gone.
* `Agenda.Scene.Change.tells` — the history goes on telling which jobs are still to run.
* `Agenda.Scene.cancelsForGood_log` — what cancelling comes to in the course of any run.
-/

namespace SealedStream.Agenda

open Std

/-! ## Histories -/

variable {history : List Note} {note : Note} {id : Nat} {repeats : Bool}

/-- By the history, the job of a number is still to run: it was entered and not cancelled since then, and if
it runs once, it has not begun to. -/
def Awaited (history : List Note) (id : Nat) (repeats : Bool) : Prop :=
  ∃ front later, history = front ++ .entered id repeats :: later ∧ .cancelled id ∉ later ∧
    (repeats = true ∨ .began id ∉ later)

theorem awaited_append_iff : Awaited (history ++ [note]) id repeats ↔ note = .entered id repeats ∨
    Awaited history id repeats ∧ note ≠ .cancelled id ∧ (repeats = true ∨ note ≠ .began id) := by
  constructor
  · rintro ⟨front, later, eq, kept, unstarted⟩
    rcases List.eq_nil_or_concat later with rfl | ⟨later, last, rfl⟩
    · obtain ⟨-, same⟩ := List.append_inj' eq rfl
      exact .inl (List.cons.inj same).1
    · rw [List.concat_eq_append, ← List.cons_append, ← List.append_assoc] at eq
      obtain ⟨rfl, same⟩ := List.append_inj' eq rfl
      obtain rfl := (List.cons.inj same).1
      simp only [List.concat_eq_append, List.mem_append, List.mem_singleton, not_or] at kept unstarted
      exact .inr ⟨⟨front, later, rfl, kept.1, unstarted.imp_right And.left⟩, Ne.symm kept.2,
        unstarted.imp_right fun unstarted => Ne.symm unstarted.2⟩
  · rintro (rfl | ⟨⟨front, later, rfl, kept, unstarted⟩, other, onward⟩)
    · exact ⟨history, [], rfl, nofun, .inr nofun⟩
    · refine ⟨front, later ++ [note], by simp, ?_, ?_⟩
      · simp [kept, Ne.symm other]
      · rcases unstarted with repeats | unstarted
        · exact .inl repeats
        · exact onward.imp_right fun onward => by simp [unstarted, Ne.symm onward]

/-! ## The other jobs -/

/-- Agendas between which nothing is different but whether the job of a number is queued or marked. -/
structure SameBut {τ : Type} (id : Nat) (a b : Agenda τ) : Prop where
  now : b.now = a.now
  nextId : b.nextId = a.nextId
  queued : ∀ x : Due × Entry τ, x.1.id ≠ id → (x ∈ b.entries ↔ x ∈ a.entries)
  running : b.running = a.running
  marked : ∀ id', id' ≠ id → (id' ∈ b.cancelled ↔ id' ∈ a.cancelled)
  overflowed : b.overflowed = a.overflowed

theorem sameBut_cancel {τ : Type} (id : Nat) (a : Agenda τ) : SameBut id a (a.cancel id) where
  now := by
    unfold Agenda.cancel
    split <;> rfl
  nextId := nextId_cancel
  queued x other := mem_entries_cancel_iff.trans (and_iff_left fun same => absurd same other)
  running := running_cancel
  marked id' other := mem_cancelled_cancel.trans (or_iff_left fun found => other found.1.symm)
  overflowed := by
    unfold Agenda.cancel
    split <;> rfl

namespace Scene

variable {τ : Type} {s t : Scene τ} {move : Move τ} {report : Option (Due × Entry τ)} {id : Nat}

/-- A move of a run: the scene that it found, the job that began to run, and the scene that it left. -/
abbrev Event (τ : Type) := Log.Entry (Scene τ) (Move τ) (Option (Due × Entry τ))

/-! ## Gone for good -/

/-- The job of a number does not run again: it is not queued, and if it is being run, it is marked. -/
structure Gone (id : Nat) (s : Scene τ) : Prop where
  old : id < s.agenda.nextId
  unqueued : ∀ x ∈ s.agenda.entries, x.1.id ≠ id
  marked : id ∈ s.agenda.running → id ∈ s.agenda.cancelled

theorem Sound.gone_cancel (sound : s.Sound) (old : id < s.agenda.nextId)
    (agenda : t.agenda = s.agenda.cancel id) : Gone id t := by
  refine ⟨by rwa [agenda, nextId_cancel], fun x mem same => ?_, fun running => ?_⟩
  · rw [agenda, mem_entries_cancel_iff] at mem
    obtain ⟨y, inProgress, rfl, -⟩ := (sound.mem_running_iff id).1 (mem.2 same)
    exact sound.apart y inProgress x mem.1 same
  · rw [agenda, running_cancel] at running
    rw [agenda, mem_cancelled_cancel]
    exact .inr ⟨rfl, running⟩

/-- A job that is gone does not begin to run, and it stays gone. -/
theorem Change.gone (change : Change s t move report) (sound : s.Sound) (gone : Gone id s) :
    (∀ x ∈ report, x.1.id ≠ id) ∧ Gone id t := by
  obtain ⟨old, unqueued, marked⟩ := gone
  cases change with
  | enter agenda jobs =>
    refine ⟨nofun, ?_, fun x mem => ?_, ?_⟩
    · rw [agenda]
      exact old.trans (Nat.lt_succ_self _)
    · rw [agenda, mem_entries_enter_iff sound.fresh] at mem
      rcases mem with rfl | mem
      · exact (Nat.ne_of_lt old).symm
      · exact unqueued x mem
    · rw [agenda]
      exact marked
  | cancel agenda jobs =>
    refine ⟨nofun, by rwa [agenda, nextId_cancel], fun x mem => ?_, fun running => ?_⟩
    · rw [agenda, mem_entries_cancel_iff] at mem
      exact unqueued x mem.1
    · rw [agenda, running_cancel] at running
      rw [agenda, mem_cancelled_cancel]
      exact .inl (marked running)
  | start entries nextId running cancelled jobs =>
    rw [entries, List.forall_mem_cons] at unqueued
    refine ⟨fun y same => ?_, by rwa [nextId], unqueued.2, fun noted => ?_⟩
    · exact Option.mem_some.1 same ▸ unqueued.1
    · rw [cancelled]
      exact marked (((running id).1 noted).resolve_right fun found => unqueued.1 found.1)
  | land agenda jobs =>
    rename_i due entry
    have inProgress : (due, entry) ∈ s.jobs := jobs ▸ List.mem_cons_self
    refine ⟨nofun, by rwa [agenda, nextId_land], fun x mem => ?_, fun noted => ?_⟩
    · rw [agenda, mem_entries_land_iff (sound.apart _ inProgress)] at mem
      rcases mem with ⟨kept, period, every, rfl⟩ | mem
      · rintro rfl
        exact kept (marked ((sound.mem_running_iff _).2 ⟨_, inProgress, rfl, by simp [every]⟩))
      · exact unqueued x mem
    · rw [agenda, mem_running_land] at noted
      rw [agenda, mem_cancelled_land]
      exact ⟨marked noted.1, noted.2⟩
  | quiet _ _ entries nextId running cancelled jobs =>
    exact ⟨nofun, by rwa [nextId], by rwa [entries], by rwa [running, cancelled]⟩

/-! ## What the history tells -/

/-- What a move notes in the history. -/
def note? (e : Event τ) : Option Note :=
  match e.act, e.report with
  | .enter _ every _, _ => some (.entered e.before.agenda.nextId every.isSome)
  | .cancel id, _ => some (.cancelled id)
  | _, some x => some (.began x.1.id)
  | _, none => none

/-- What the moves of a run note in the history. -/
def notes (told : List (Event τ)) : List Note := told.filterMap note?

/-- The job of a number is queued, or it is a repeating one that will be queued again when it has run. -/
def Waits (id : Nat) (repeats : Bool) (s : Scene τ) : Prop :=
  (∃ x ∈ s.agenda.entries, x.1.id = id ∧ x.2.every.isSome = repeats) ∨
    repeats = true ∧ id ∉ s.agenda.cancelled ∧ ∃ x ∈ s.jobs, x.1.id = id ∧ x.2.every.isSome = true

/-- The history tells which jobs were entered, and which of them are still to run. -/
structure Tells (history : List Note) (s : Scene τ) : Prop where
  entered_iff : ∀ id, id < s.agenda.nextId ↔ ∃ repeats, .entered id repeats ∈ history
  awaited_iff : ∀ id repeats, Awaited history id repeats ↔ Waits id repeats s

variable {repeats : Bool}

theorem Sound.waits_enter {delay : Nat} {every : Option Nat} {job : τ} (sound : s.Sound)
    (agenda : t.agenda = s.agenda.enter delay every job) (jobs : t.jobs = s.jobs) :
    Waits id repeats t ↔
      s.agenda.nextId = id ∧ every.isSome = repeats ∨ Waits id repeats s := by
  simp only [Waits, jobs, agenda, mem_entries_enter_iff sound.fresh, or_and_right, exists_or,
    exists_eq_left, Option.isSome_map, or_assoc]
  exact Iff.rfl

theorem Sound.waits_cancel {id' : Nat} (sound : s.Sound) (agenda : t.agenda = s.agenda.cancel id')
    (jobs : t.jobs = s.jobs) : Waits id repeats t ↔ Waits id repeats s ∧ id' ≠ id := by
  have queued (x : Due × Entry τ) :
      x ∈ t.agenda.entries ↔ x ∈ s.agenda.entries ∧ id' ≠ x.1.id := by
    rw [agenda, mem_entries_cancel_iff]
    refine and_congr_right fun mem => ⟨?_, fun other same => absurd same.symm other⟩
    rintro spared rfl
    obtain ⟨y, inProgress, same, -⟩ := (sound.mem_running_iff _).1 (spared rfl)
    exact sound.apart y inProgress x mem same.symm
  have unmarked : id ∉ t.agenda.cancelled ↔
      id ∉ s.agenda.cancelled ∧ ¬(id' = id ∧ id ∈ s.agenda.running) := by
    rw [agenda, mem_cancelled_cancel, not_or]
    refine and_congr_right fun _ => not_congr (and_congr_right fun same => ?_)
    rw [same]
  simp only [Waits, queued, unmarked, jobs, sound.mem_running_iff]
  grind

theorem Sound.waits_start {x : Due × Entry τ} (sound : s.Sound)
    (entries : s.agenda.entries = x :: t.agenda.entries)
    (cancelled : t.agenda.cancelled = s.agenda.cancelled) (jobs : t.jobs = x :: s.jobs) :
    Waits id repeats t ↔ Waits id repeats s ∧ (repeats = true ∨ x.1.id ≠ id) := by
  have others := sound.distinct.ne_of_entries_eq entries
  have queued : x ∈ s.agenda.entries := entries ▸ List.mem_cons_self
  have idle : ∀ y ∈ s.jobs, y.1.id ≠ x.1.id := fun y mem => (sound.apart y mem x queued).symm
  have unmarked : x.1.id ∉ s.agenda.cancelled := fun mem => by
    obtain ⟨y, inProgress, same, -⟩ := (sound.mem_running_iff _).1 (sound.marked _ mem)
    exact idle y inProgress same
  simp only [Waits, entries, cancelled, jobs, List.exists_mem_cons_iff]
  grind

theorem Sound.waits_land {due : Due} {entry : Entry τ} (sound : s.Sound)
    (agenda : t.agenda = s.agenda.land due entry) (jobs : s.jobs = (due, entry) :: t.jobs) :
    Waits id repeats t ↔ Waits id repeats s := by
  have apart : ∀ y ∈ s.agenda.entries, y.1.id ≠ due.id :=
    sound.apart (due, entry) (jobs ▸ List.mem_cons_self)
  have distinct := sound.distinct_jobs
  rw [jobs, List.map_cons, List.nodup_cons, List.mem_map] at distinct
  have others : ∀ y ∈ t.jobs, y.1.id ≠ due.id := fun y mem same => distinct.1 ⟨y, mem, same⟩
  simp only [Waits, jobs, agenda, mem_entries_land_iff apart, mem_cancelled_land,
    List.exists_mem_cons_iff]
  cases every : entry.every with
  | none => grind
  | some period =>
    have queued (q : Prop) : (∃ x : Due × Entry τ, ((q ∧ ∃ period', some period = some period' ∧
        x = (⟨due.time + max period' 1, due.id⟩, entry)) ∨ x ∈ s.agenda.entries) ∧
          x.1.id = id ∧ x.2.every.isSome = repeats) ↔
        q ∧ due.id = id ∧ true = repeats ∨
          ∃ x ∈ s.agenda.entries, x.1.id = id ∧ x.2.every.isSome = repeats := by
      simp [or_and_right, exists_or, and_assoc, every]
    rw [queued]
    grind

/-- A move adds its note, and the history tells of what it leaves. -/
theorem Change.tells {e : Event τ} {history : List Note}
    (change : Change e.before e.after e.act e.report) (sound : e.before.Sound)
    (tells : Tells history e.before) : Tells (history ++ (note? e).toList) e.after := by
  obtain ⟨entered_iff, awaited_iff⟩ := tells
  obtain ⟨s, act, report, t⟩ := e
  dsimp only at change sound entered_iff awaited_iff
  cases change with
  | enter agenda jobs =>
    have nextId : t.agenda.nextId = s.agenda.nextId + 1 := by rw [agenda]; rfl
    refine ⟨fun id => ?_, fun id repeats => ?_⟩
    · change id < t.agenda.nextId ↔ _
      rw [nextId, Nat.lt_succ_iff_lt_or_eq, entered_iff]
      simp [note?, exists_or]
    · simp [note?, awaited_append_iff, awaited_iff, sound.waits_enter agenda jobs]
  | @cancel id' agenda jobs =>
    have nextId : t.agenda.nextId = s.agenda.nextId := by rw [agenda, nextId_cancel]
    refine ⟨fun id => ?_, fun id repeats => ?_⟩
    · simp [note?, nextId, entered_iff]
    · simp [note?, awaited_append_iff, awaited_iff, sound.waits_cancel agenda jobs]
  | start entries nextId running cancelled jobs =>
    refine ⟨fun id => ?_, fun id repeats => ?_⟩
    · simp [note?, nextId, entered_iff]
    · simp [note?, awaited_append_iff, awaited_iff, sound.waits_start entries cancelled jobs]
  | land agenda jobs =>
    have nextId : t.agenda.nextId = s.agenda.nextId := by rw [agenda, nextId_land]
    refine ⟨fun id => ?_, fun id repeats => ?_⟩
    · simp [note?, nextId, entered_iff]
    · simp [note?, awaited_iff, sound.waits_land agenda jobs]
  | quiet uncancelled unentered entries nextId running cancelled jobs =>
    have silent : note? ⟨s, act, none, t⟩ = none := by
      cases act with
      | enter => exact absurd rfl (unentered _ _ _)
      | cancel => exact absurd rfl (uncancelled _)
      | _ => rfl
    refine ⟨fun id => ?_, fun id repeats => ?_⟩
    · simp [silent, nextId, entered_iff]
    · simp [silent, awaited_iff, Waits, entries, cancelled, jobs]

/-! ## Runs -/

variable {moves : List (Move τ)} {now : Nat}

theorem change_of_mem_log {e : Event τ} (mem : e ∈ log perform moves s) :
    Change e.before e.after e.act e.report := by
  obtain ⟨-, report, after⟩ := of_mem_log mem
  rw [report, after]
  exact change_perform e.act e.before

theorem notes_cons (e : Event τ) (told : List (Event τ)) :
    notes (e :: told) = (note? e).toList ++ notes told := by
  rw [notes, List.filterMap_cons]
  cases note? e <;> rfl

theorem notes_append (front rest : List (Event τ)) : notes (front ++ rest) = notes front ++ notes rest :=
  List.filterMap_append

theorem tells_startingAt (now : Nat) : Tells [] (startingAt now : Scene τ) := by
  refine ⟨fun id => ?_, fun id repeats => ?_⟩
  · simp [startingAt, Agenda.startingAt]
  · simp [startingAt, Awaited, Waits, jobs]

/-- The history goes on telling of the scene throughout a run. -/
theorem Tells.after {history : List Note} (tells : Tells history s) (sound : s.Sound)
    (moves : List (Move τ)) : Tells (history ++ notes (log perform moves s)) (after moves s) := by
  induction moves generalizing s history with
  | nil => exact (List.append_nil history).symm ▸ tells
  | cons move moves ih =>
    have change := change_perform move s
    have next := ih (change.tells (e := ⟨_, _, _, _⟩) sound tells) (change.sound sound)
    rwa [List.append_assoc, ← notes_cons] at next

/-- Throughout a run scenes are sound, and the history tells of them. -/
theorem sound_of_log {front rest : List (Event τ)} {e : Event τ}
    (eq : log perform moves (startingAt now) = front ++ e :: rest) :
    (e.before.Sound ∧ Tells (notes front) e.before) ∧
      e.after.Sound ∧ Tells (notes (front ++ [e])) e.after := by
  have start : (startingAt now : Scene τ).Sound ∧
      Tells (notes ([] : List (Event τ))) (startingAt now : Scene τ) :=
    ⟨sound_startingAt now, tells_startingAt now⟩
  have step (past : List (Event τ)) : ∀ e ∈ log perform moves (startingAt now),
      e.before.Sound ∧ Tells (notes past) e.before →
        e.after.Sound ∧ Tells (notes (past ++ [e])) e.after := by
    rintro e mem ⟨sound, tells⟩
    have change := change_of_mem_log mem
    rw [notes_append, notes_cons, show notes ([] : List (Event τ)) = [] from rfl, List.append_nil]
    exact ⟨change.sound sound, change.tells sound tells⟩
  have before := history_of_log (fun past s => s.Sound ∧ Tells (notes past) s) start step eq
  exact ⟨before, step front e (eq ▸ List.mem_append_right _ List.mem_cons_self) before⟩

theorem pairwise_unstarted : (log perform moves (startingAt now : Scene τ)).Pairwise fun e e' =>
    ∀ id, e.act = .cancel id → id < e.before.agenda.nextId → ∀ x ∈ e'.report, x.1.id ≠ id := by
  refine (pairwise_log Sound (fun past s => ∀ id, past.act = .cancel id →
    id < past.before.agenda.nextId → Gone id s) (sound_startingAt now) ?_).2
  intro e mem sound
  have change := change_of_mem_log mem
  refine ⟨change.sound sound, fun id cancels old => ?_, fun past gone => ⟨fun id cancels old => ?_,
    fun id cancels old => ?_⟩⟩
  · obtain ⟨-, -, after⟩ := of_mem_log mem
    exact sound.gone_cancel old (by rw [after, cancels]; rfl)
  · exact (change.gone sound (gone id cancels old)).1
  · exact (change.gone sound (gone id cancels old)).2

/-- In the history, a job does not begin to run after it was cancelled. -/
theorem began_not_mem {front rest : List Note} {id : Nat}
    (eq : notes (log perform moves (startingAt now : Scene τ)) = front ++ .cancelled id :: rest)
    (entered : ∃ repeats, .entered id repeats ∈ front) : .began id ∉ rest := by
  obtain ⟨told, told', split, rfl, rest_eq⟩ := List.filterMap_eq_append_iff.1 eq
  obtain ⟨quiet, e, later, rfl, silent, noted, rfl⟩ := List.filterMap_eq_cons_iff.1 rest_eq
  rw [← List.append_assoc] at split
  have unstarted : (log perform moves (startingAt now)).Pairwise _ := pairwise_unstarted
  rw [split, List.pairwise_append, List.pairwise_cons] at unstarted
  have cancels : e.act = .cancel id := by
    unfold note? at noted
    split at noted <;> simp_all
  have old : id < e.before.agenda.nextId := by
    refine ((sound_of_log split).1.2.entered_iff id).2 ?_
    obtain ⟨repeats, mem⟩ := entered
    exact ⟨repeats, by rw [notes_append]; exact List.mem_append_left _ mem⟩
  intro began
  obtain ⟨e', mem, noted'⟩ := List.mem_filterMap.1 began
  have starts : ∃ x ∈ e'.report, x.1.id = id := by
    unfold note? at noted'
    split at noted' <;> simp_all
  obtain ⟨x, report, same⟩ := starts
  exact unstarted.2.1.1 e' mem id cancels old x report same

/-- What the log of a run tells of cancelling. -/
structure CancelsForGood (told : List (Event τ)) : Prop where
  /-- A job does not begin to run any more after it was cancelled. -/
  final : told.Pairwise fun e e' => ∀ id, e.act = .cancel id → id < e.before.agenda.nextId →
    ∀ x ∈ e'.report, x.1.id ≠ id
  /-- When a job is cancelled, nothing about the others changes. -/
  sameBut : ∀ e ∈ told, ∀ id, e.act = .cancel id →
    SameBut id e.before.agenda e.after.agenda ∧ e.after.stack = e.before.stack
  /-- At any time those jobs are queued, or will be when they have run, that were entered and not cancelled
  since then, apart from those that run once and have begun to. -/
  waits_iff : ∀ front e rest, told = front ++ e :: rest → ∀ id repeats,
    Waits id repeats e.after ↔ Awaited (notes (front ++ [e])) id repeats
  /-- While no job is being run, none is noted or marked. -/
  nothing_left : ∀ e ∈ told, e.after.jobs = [] →
    e.after.agenda.running = ∅ ∧ e.after.agenda.cancelled = ∅

/-- Every run cancels for good. -/
theorem cancelsForGood_log (now : Nat) (moves : List (Move τ)) :
    CancelsForGood (log perform moves (startingAt now)) where
  final := pairwise_unstarted
  sameBut e mem id cancels := by
    obtain ⟨-, -, after⟩ := of_mem_log mem
    rw [after, cancels]
    exact ⟨sameBut_cancel id e.before.agenda, rfl⟩
  waits_iff front e rest eq id repeats := ((sound_of_log eq).2.2.awaited_iff id repeats).symm
  nothing_left e mem idle := by
    obtain ⟨front, rest, eq⟩ := List.append_of_mem mem
    have atRest := (sound_of_log eq).2.1.atRest idle
    exact ⟨atRest.running, atRest.cancelled⟩

end Scene

end SealedStream.Agenda
