import Mathlib.Data.List.Sort
import SealedStream.Proofs.Agenda.Dates
import SealedStream.Proofs.Agenda.Queue

/-!
# The timetable of an agenda

Jobs that leave the agenda alone run when it says. Moving the clock on runs what falls up to the time
reached, in order, and leaves of each job the first date after that time. Where the clock stops on the
way makes no difference.

All of this is so as long as the times are counts. Each job that has run is queued for its next date at
once, so that a date that is too great is met as soon as the one before it is reached.

## Main definitions

* `Agenda.Timetable` — the dates up to a time, in order, each with its job.
* `Agenda.Leaves` — an agenda and what is left of it when its jobs have run up to a time.
* `Agenda.InRange`, `Agenda.Overruns` — the times of an agenda are counts; on the way to a time, one of
  them is too great.
* `Host.aside` — jobs that read the clock and work on a state beside the agenda.
* `Host.Advances` — moving the clock on runs a timetable.

## Main statements

* `Agenda.AtRest.timetable_cons`, `Agenda.AtRest.leaves_of_serve` — one run.
* `Agenda.Timetable.append`, `Agenda.Leaves.trans` — one time after another.
* `Host.overflowed_advance_iff` — when moving the clock on takes a time that is too great.
* `Host.advance_follows_timetable` — moving the clock on, at once or in two parts.
-/

namespace SealedStream

open Std

namespace Agenda

variable {τ : Type} {a b rest : Agenda τ} {target time : Nat} {due date : Due} {entry : Entry τ}

/-! ### One run -/

/-- What is left of an agenda when a job that was taken from it has run and left it alone. -/
def serve (due : Due) (entry : Entry τ) (rest : Agenda τ) : Agenda τ :=
  (rest.launch due entry).land due entry

@[simp] theorem now_serve : (rest.serve due entry).now = rest.now := by simp [serve]

@[simp] theorem nextId_serve : (rest.serve due entry).nextId = rest.nextId := by simp [serve]

/-- Once a job has run, it is queued for the next period if it repeats. -/
theorem AtRest.mem_entries_serve (atRest : a.AtRest)
    (next : a.popDue? target = some (due, entry, rest)) {x : Due × Entry τ} :
    x ∈ ((rest.reach time).serve due entry).entries ↔
      (∃ period, entry.every = some period ∧ x = (⟨due.time + max period 1, due.id⟩, entry)) ∨
        x ∈ rest.entries := by
  obtain ⟨-, entries, same⟩ := of_popDue?_eq_some next
  have others := atRest.distinct.ne_of_entries_eq entries
  have kept : due.id ∉ rest.cancelled := by
    rw [same]
    simp [atRest.cancelled]
  rw [Agenda.serve, mem_entries_land_iff (by simpa using others)]
  simp [kept]

theorem AtRest.serve (atRest : a.AtRest) (next : a.popDue? target = some (due, entry, rest)) :
    ((rest.reach time).serve due entry).AtRest := by
  obtain ⟨-, entries, same⟩ := of_popDue?_eq_some next
  have others := atRest.distinct.ne_of_entries_eq entries
  have within : ∀ x ∈ rest.entries, x ∈ a.entries := fun x mem =>
    entries ▸ List.mem_cons_of_mem _ mem
  have running : rest.running = ∅ := by rw [same]; exact atRest.running
  have cancelled : rest.cancelled = ∅ := by rw [same]; exact atRest.cancelled
  refine ⟨Distinct.land ((atRest.distinct.of_subset within).of_subset ?_) ?_, ?_, ?_⟩
  · simp
  · simpa using others
  · ext id
    simp only [Agenda.serve, mem_running_land, mem_running_launch, running_reach, running,
      ExtTreeSet.not_mem_empty, false_or, iff_false]
    rintro ⟨⟨rfl, repeats⟩, once⟩
    rw [once rfl] at repeats
    cases repeats
  · ext id
    simp [Agenda.serve, cancelled]

/-- The next date of a job is reckoned as soon as it has run. -/
theorem AtRest.overflowed_serve (atRest : a.AtRest)
    (next : a.popDue? target = some (due, entry, rest)) (count : time ≤ Count.top) :
    ((rest.reach time).serve due entry).overflowed = true ↔ a.overflowed = true ∨
      ∃ period, entry.every = some period ∧ Count.top < due.time + max period 1 := by
  obtain ⟨-, -, same⟩ := of_popDue?_eq_some next
  have kept : due.id ∉ a.cancelled := by simp [atRest.cancelled]
  rw [same, Agenda.serve, overflowed_land]
  simp [kept, Nat.not_lt.2 count]

/-! ### Times that are counts -/

/-- The clock and the jobs are at times that are counts, and no sum was too great so far. -/
structure InRange (a : Agenda τ) : Prop where
  now_le : a.now ≤ Count.top
  time_le : ∀ x ∈ a.entries, x.1.time ≤ Count.top
  not_overflowed : a.overflowed = false

/-- A job is queued for a time that is too great. -/
def Exceeds (a : Agenda τ) : Prop := ∃ x ∈ a.entries, Count.top < x.1.time

/-- On the way to `target`, a time is too great: `target` itself, or the date for which a job is queued
then. -/
def Overruns (target : Nat) (a : Agenda τ) : Prop :=
  Count.top < target ∨
    ∃ x ∈ a.entries, ∃ date, FallsNext target x.1 x.2 date ∧ Count.top < date.time

theorem InRange.not_exceeds (inRange : a.InRange) : ¬a.Exceeds := fun ⟨x, mem, exceeds⟩ =>
  absurd (inRange.time_le x mem) (Nat.not_le.2 exceeds)

theorem inRange_of_not_exceeds (now : a.now ≤ Count.top) (not_exceeds : ¬a.Exceeds)
    (not_overflowed : a.overflowed = false) : a.InRange :=
  ⟨now, fun x mem => Nat.not_lt.1 fun exceeds => not_exceeds ⟨x, mem, exceeds⟩, not_overflowed⟩

/-- If the way to a time is in range, so is the way to any time before it. -/
theorem not_overruns_of_le {sooner later : Nat} (le : sooner ≤ later) (within : ¬a.Overruns later) :
    ¬a.Overruns sooner := by
  have readable : later ≤ Count.top := Nat.not_lt.1 fun exceeds => within (.inl exceeds)
  rintro (exceeds | ⟨x, mem, date, next, exceeds⟩)
  · omega
  · refine within (.inr ⟨x, mem, date, ⟨next.falls, by omega, fun date' falls after => ?_⟩, exceeds⟩)
    exact next.first date' falls (by omega)

/-! ### What is run, and what is left -/

/-- The dates up to `target`, in order, each with the job that falls on it. -/
structure Timetable (a : Agenda τ) (target : Nat) (runs : List (Due × τ)) : Prop where
  ascending : runs.Pairwise fun x y => compare x.1 y.1 = .lt
  mem_iff : ∀ date job, (date, job) ∈ runs ↔ date.time ≤ target ∧
    ∃ x ∈ a.entries, x.2.job = job ∧ Falls x.1 x.2 date

/-- The agenda `b` has what is left of the jobs of `a` when these have run up to `target`. -/
structure Leaves (a : Agenda τ) (target : Nat) (b : Agenda τ) : Prop where
  nextId : b.nextId = a.nextId
  running : b.running = ∅
  cancelled : b.cancelled = ∅
  mem_iff : ∀ date entry, (date, entry) ∈ b.entries ↔
    ∃ x ∈ a.entries, x.2 = entry ∧ FallsNext target x.1 x.2 date

theorem timetable_nil (none : a.popDue? target = none) : Timetable a target [] := by
  rw [popDue?_eq_none_iff] at none
  refine ⟨.nil, fun date job => ?_⟩
  simp only [List.not_mem_nil, false_iff]
  rintro ⟨reached, x, mem, -, falls⟩
  have late : target < x.1.time := none x mem
  have := falls.time_le
  omega

theorem AtRest.leaves_self (atRest : a.AtRest) (none : a.popDue? target = none) :
    Leaves a target a := by
  rw [popDue?_eq_none_iff] at none
  refine ⟨rfl, atRest.running, atRest.cancelled, fun date entry => ⟨fun mem => ?_, ?_⟩⟩
  · exact ⟨(date, entry), mem, rfl, (fallsNext_iff_of_lt (none _ mem)).2 rfl⟩
  · rintro ⟨⟨due, entry⟩, mem, rfl, next⟩
    rwa [(fallsNext_iff_of_lt (none _ mem)).1 next]

/-- Taking the first job and queueing it again is no change for what holds of some job if it holds of
that one when it is queued again. -/
theorem AtRest.exists_mem_entries_iff (atRest : a.AtRest)
    (next : a.popDue? target = some (due, entry, rest)) {p : Due → Entry τ → Prop} {q : Prop}
    (again : p due entry ↔ q ∨
      ∃ period, entry.every = some period ∧ p ⟨due.time + max period 1, due.id⟩ entry) :
    (∃ x ∈ a.entries, p x.1 x.2) ↔
      q ∨ ∃ x ∈ ((rest.reach time).serve due entry).entries, p x.1 x.2 := by
  obtain ⟨-, entries, -⟩ := of_popDue?_eq_some next
  rw [entries, List.exists_mem_cons_iff, again, or_assoc]
  refine or_congr_right ⟨?_, ?_⟩
  · rintro (⟨period, every, holds⟩ | ⟨x, mem, holds⟩)
    · exact ⟨_, (atRest.mem_entries_serve next).2 (.inl ⟨period, every, rfl⟩), holds⟩
    · exact ⟨x, (atRest.mem_entries_serve next).2 (.inr mem), holds⟩
  · rintro ⟨x, mem, holds⟩
    rcases (atRest.mem_entries_serve next).1 mem with ⟨period, every, rfl⟩ | mem
    · exact .inl ⟨period, every, holds⟩
    · exact .inr ⟨x, mem, holds⟩

/-- When a job has run, the rest of the timetable is that of what is left. -/
theorem AtRest.timetable_cons {runs : List (Due × τ)} (atRest : a.AtRest)
    (next : a.popDue? target = some (due, entry, rest))
    (later : Timetable ((rest.reach time).serve due entry) target runs) :
    Timetable a target ((due, entry.job) :: runs) := by
  obtain ⟨reached, entries, -⟩ := of_popDue?_eq_some next
  have ordered := a.entries_ordered
  rw [entries, List.pairwise_cons] at ordered
  refine ⟨List.pairwise_cons.2 ⟨?_, later.ascending⟩, fun date job => ?_⟩
  · rintro ⟨date, job⟩ mem
    obtain ⟨-, x, queued, -, falls⟩ := (later.mem_iff date job).1 mem
    refine falls.lt ?_
    rcases (atRest.mem_entries_serve next).1 queued with ⟨period, -, rfl⟩ | queued
    · exact lt_of_time_lt (show due.time < due.time + max period 1 by omega)
    · exact ordered.1 x queued
  · have again : entry.job = job ∧ Falls due entry date ↔ (date, job) = (due, entry.job) ∨
        ∃ period, entry.every = some period ∧
          entry.job = job ∧ Falls ⟨due.time + max period 1, due.id⟩ entry date := by
      rw [falls_iff]
      grind
    rw [List.mem_cons, later.mem_iff, atRest.exists_mem_entries_iff next
      (p := fun due entry => entry.job = job ∧ Falls due entry date) again]
    constructor
    · rintro (same | ⟨within, falls⟩)
      · exact ⟨(Prod.mk.inj same).1 ▸ reached, .inl same⟩
      · exact ⟨within, .inr falls⟩
    · rintro ⟨within, same | falls⟩
      · exact .inl same
      · exact .inr ⟨within, falls⟩

theorem AtRest.leaves_of_serve (atRest : a.AtRest)
    (next : a.popDue? target = some (due, entry, rest))
    (later : Leaves ((rest.reach time).serve due entry) target b) : Leaves a target b := by
  obtain ⟨reached, -, same⟩ := of_popDue?_eq_some next
  refine ⟨?_, later.running, later.cancelled, fun date entry' => ?_⟩
  · rw [later.nextId, nextId_serve, same]
    rfl
  · have again : entry = entry' ∧ FallsNext target due entry date ↔ False ∨
        ∃ period, entry.every = some period ∧
          entry = entry' ∧ FallsNext target ⟨due.time + max period 1, due.id⟩ entry date := by
      rw [fallsNext_iff_of_le reached]
      grind
    rw [later.mem_iff, atRest.exists_mem_entries_iff next
      (p := fun due entry => entry = entry' ∧ FallsNext target due entry date) again, false_or]

/-! ### One time after another -/

theorem Leaves.atRest (leaves : Leaves a target b) (atRest : a.AtRest) : b.AtRest := by
  refine ⟨?_, leaves.running, leaves.cancelled⟩
  rintro ⟨date, entry⟩ mem ⟨date', entry'⟩ mem' same
  obtain ⟨x, queued, rfl, next⟩ := (leaves.mem_iff date entry).1 mem
  obtain ⟨y, queued', rfl, next'⟩ := (leaves.mem_iff date' entry').1 mem'
  obtain rfl := atRest.distinct x queued y queued' (next.falls.1.symm.trans (same.trans next'.falls.1))
  rw [next.unique next']

/-- What is left falls where it fell before, after the time that was reached. -/
theorem Leaves.exists_falls_iff (leaves : Leaves a target b) (p : Entry τ → Prop) :
    (∃ x ∈ b.entries, p x.2 ∧ Falls x.1 x.2 date) ↔
      target < date.time ∧ ∃ x ∈ a.entries, p x.2 ∧ Falls x.1 x.2 date := by
  constructor
  · rintro ⟨⟨next, entry⟩, mem, holds, falls⟩
    obtain ⟨x, queued, rfl, is⟩ := (leaves.mem_iff next entry).1 mem
    have after : target < date.time := is.after.trans_le falls.time_le
    exact ⟨after, x, queued, holds, (is.falls_iff after).1 falls⟩
  · rintro ⟨after, x, queued, holds, falls⟩
    obtain ⟨next, is, falls'⟩ := falls.exists_next after
    exact ⟨(next, x.2), (leaves.mem_iff next x.2).2 ⟨x, queued, rfl, is⟩, holds, falls'⟩

theorem Leaves.trans {c : Agenda τ} {later : Nat} (leaves : Leaves a target b)
    (leaves' : Leaves b later c) (le : target ≤ later) : Leaves a later c := by
  refine ⟨leaves'.nextId.trans leaves.nextId, leaves'.running, leaves'.cancelled,
    fun date entry => ?_⟩
  have next_iff {due next : Due} (is : FallsNext target due entry next) :
      FallsNext later next entry date ↔ FallsNext later due entry date := by
    have falls_iff (date' : Due) (after : later < date'.time) :=
      @FallsNext.falls_iff τ target due date' entry next is (le.trans_lt after)
    exact ⟨fun next => ⟨(falls_iff _ next.after).1 next.falls, next.after,
        fun date' falls after => next.first date' ((falls_iff _ after).2 falls) after⟩,
      fun next => ⟨(falls_iff _ next.after).2 next.falls, next.after,
        fun date' falls after => next.first date' ((falls_iff _ after).1 falls) after⟩⟩
  rw [leaves'.mem_iff]
  constructor
  · rintro ⟨⟨date', entry'⟩, mem, rfl, next⟩
    obtain ⟨x, queued, rfl, is⟩ := (leaves.mem_iff date' entry').1 mem
    exact ⟨x, queued, rfl, (next_iff is).1 next⟩
  · rintro ⟨x, queued, rfl, next⟩
    obtain ⟨date', is, -⟩ := next.falls.exists_next (le.trans_lt next.after)
    exact ⟨(date', x.2), (leaves.mem_iff _ _).2 ⟨x, queued, rfl, is⟩, rfl, (next_iff is).2 next⟩

/-- A job that is queued for a date after `target` is left there. -/
theorem Leaves.mem_entries_of_lt (leaves : Leaves a target b) {x : Due × Entry τ}
    (mem : x ∈ a.entries) (after : target < x.1.time) : x ∈ b.entries :=
  (leaves.mem_iff x.1 x.2).2 ⟨x, mem, rfl, (fallsNext_iff_of_lt after).2 rfl⟩

theorem Leaves.exceeds_iff (leaves : Leaves a target b) (count : target ≤ Count.top) :
    b.Exceeds ↔ a.Overruns target := by
  rw [Overruns, or_iff_right (Nat.not_lt.2 count)]
  constructor
  · rintro ⟨⟨date, entry⟩, mem, exceeds⟩
    obtain ⟨x, queued, -, next⟩ := (leaves.mem_iff date entry).1 mem
    exact ⟨x, queued, date, next, exceeds⟩
  · rintro ⟨x, queued, date, next, exceeds⟩
    exact ⟨(date, x.2), (leaves.mem_iff _ _).2 ⟨x, queued, rfl, next⟩, exceeds⟩

/-- What is left, and the clock, tell the agenda. -/
theorem Leaves.unique {b' : Agenda τ} (leaves : Leaves a target b) (leaves' : Leaves a target b')
    (now : b.now = b'.now) (overflowed : b.overflowed = b'.overflowed) : b = b' := by
  have queue : b.queue = b'.queue := by
    refine ExtTreeMap.ext_getElem? fun date => Option.ext fun entry => ?_
    rw [← mem_entries, ← mem_entries, leaves.mem_iff, leaves'.mem_iff]
  have nextId := leaves.nextId.trans leaves'.nextId.symm
  have running := leaves.running.trans leaves'.running.symm
  have cancelled := leaves.cancelled.trans leaves'.cancelled.symm
  cases b; cases b'
  simp_all

theorem Timetable.append {later : Nat} {runs runs' : List (Due × τ)}
    (timetable : Timetable a target runs) (leaves : Leaves a target b)
    (timetable' : Timetable b later runs') (le : target ≤ later) :
    Timetable a later (runs ++ runs') := by
  have after_iff (date : Due) (job : τ) : (date, job) ∈ runs' ↔ date.time ≤ later ∧
      target < date.time ∧ ∃ x ∈ a.entries, x.2.job = job ∧ Falls x.1 x.2 date := by
    rw [timetable'.mem_iff, leaves.exists_falls_iff (·.job = job)]
  refine ⟨List.pairwise_append.2 ⟨timetable.ascending, timetable'.ascending, ?_⟩, fun date job => ?_⟩
  · rintro ⟨date, job⟩ mem ⟨date', job'⟩ mem'
    have until_target := ((timetable.mem_iff date job).1 mem).1
    have after := ((after_iff date' job').1 mem').2.1
    exact lt_of_time_lt (until_target.trans_lt after)
  · rw [List.mem_append, timetable.mem_iff, after_iff]
    constructor
    · rintro (⟨reached, falls⟩ | ⟨reached, -, falls⟩)
      · exact ⟨reached.trans le, falls⟩
      · exact ⟨reached, falls⟩
    · rintro ⟨reached, falls⟩
      exact (Nat.lt_or_ge target date.time).elim (fun after => .inr ⟨reached, after, falls⟩)
        fun before => .inl ⟨before, falls⟩

/-- There is one timetable. -/
theorem Timetable.unique {runs runs' : List (Due × τ)} (timetable : Timetable a target runs)
    (timetable' : Timetable a target runs') : runs = runs' := by
  have irrefl : Std.Irrefl fun x y : Due × τ => compare x.1 y.1 = .lt := ⟨fun x => by simp⟩
  have antisymm : Std.Antisymm fun x y : Due × τ => compare x.1 y.1 = .lt :=
    ⟨fun x y before after => by
      rw [OrientedOrd.eq_swap, after] at before
      cases before⟩
  exact timetable.ascending.eq_of_mem_iff timetable'.ascending fun ⟨date, job⟩ =>
    (timetable.mem_iff date job).trans (timetable'.mem_iff date job).symm

end Agenda

/-! ## Moving the clock on -/

namespace Host

variable {τ ω : Type} {a rest : Agenda τ} {act : Nat → τ → Nat → ω → ω} {w : ω} {due : Due}
  {entry : Entry τ} {target fuel : Nat}

/-- Jobs that find their number and the time, and work on a state beside the agenda. -/
def aside (act : Nat → τ → Nat → ω → ω) : Host (Agenda τ × ω) τ where
  agenda := Prod.fst
  setAgenda a s := (a, s.2)
  run id job s := (s.1, act id job s.1.now s.2)

theorem calm_aside (act : Nat → τ → Nat → ω → ω) : (aside act).Calm := ⟨fun _ _ => rfl, fun _ _ _ => rfl⟩

theorem runEntry_aside :
    (aside act).runEntry due entry (a, w) = (a.serve due entry, act due.id entry.job a.now w) := by
  unfold runEntry Agenda.serve Agenda.launch Agenda.land
  cases entry.every <;> rfl

theorem drain_aside_succ (next : a.popDue? target = some (due, entry, rest)) :
    (aside act).drain (fuel + 1) target (a, w) = (aside act).drain fuel target
      ((rest.reach due.time).serve due entry, act due.id entry.job (max a.now due.time) w) := by
  obtain ⟨-, -, same⟩ := Agenda.of_popDue?_eq_some next
  have now : (rest.reach due.time).now = max a.now due.time := by rw [same]; rfl
  rw [drain]
  simp only [show (aside act).agenda (a, w) = a from rfl, next]
  rw [← now]
  exact congrArg _ runEntry_aside

/-- Running the jobs that are due up to `target`, at most `fuel` of them, runs the timetable and leaves
`b`, whatever the jobs do. Each finds the clock at its date, or where it was if that is later. -/
structure Drains (fuel target : Nat) (a : Agenda τ) (runs : List (Due × τ)) (b : Agenda τ) : Prop where
  timetable : a.Timetable target runs
  leaves : a.Leaves target b
  le_now : a.now ≤ b.now
  now_le : b.now ≤ max a.now target
  overflowed_iff : b.overflowed = true ↔ a.overflowed = true ∨ b.Exceeds
  drain_eq : ∀ {ω : Type} (act : Nat → τ → Nat → ω → ω) (w : ω), (aside act).drain fuel target (a, w) =
    (b, runs.foldl (fun w x => act x.1.id x.2 (max a.now x.1.time) w) w)

theorem drains_nil (atRest : a.AtRest) (noticed : a.Exceeds → a.overflowed = true)
    (none : a.popDue? target = none) : Drains fuel target a [] a := by
  refine ⟨Agenda.timetable_nil none, atRest.leaves_self none, Nat.le_refl _, Nat.le_max_left ..,
    (or_iff_left_of_imp noticed).symm, fun act w => ?_⟩
  cases fuel with
  | zero => rfl
  | succ fuel => simp only [drain, show (aside act).agenda (a, w) = a from rfl, none, List.foldl_nil]

theorem Drains.cons {runs : List (Due × τ)} {b : Agenda τ} (atRest : a.AtRest)
    (count : target ≤ Count.top) (next : a.popDue? target = some (due, entry, rest))
    (later : Drains fuel target ((rest.reach due.time).serve due entry) runs b) :
    Drains (fuel + 1) target a ((due, entry.job) :: runs) b := by
  obtain ⟨reached, entries, same⟩ := Agenda.of_popDue?_eq_some next
  have now : ((rest.reach due.time).serve due entry).now = max a.now due.time := by
    rw [Agenda.now_serve, same]
    rfl
  have timetable := atRest.timetable_cons next later.timetable
  have le_now := later.le_now
  have now_le := later.now_le
  rw [now] at le_now now_le
  refine ⟨timetable, atRest.leaves_of_serve next later.leaves, by omega, by omega, ?_, fun act w => ?_⟩
  · rw [later.overflowed_iff, atRest.overflowed_serve next (reached.trans count), or_assoc]
    refine or_congr_right (or_iff_right_of_imp ?_)
    rintro ⟨period, every, exceeds⟩
    -- The job waits for its next date up to the end, as that is after `target`.
    have queued : (⟨due.time + max period 1, due.id⟩, entry) ∈
        ((rest.reach due.time).serve due entry).entries :=
      (atRest.mem_entries_serve next).2 (.inl ⟨period, every, rfl⟩)
    exact ⟨_, later.leaves.mem_entries_of_lt queued (count.trans_lt exceeds), exceeds⟩
  rw [drain_aside_succ next, later.drain_eq, List.foldl_cons, now]
  congr 1
  refine List.foldl_ext _ _ _ fun w x mem => ?_
  have after : due.time ≤ x.1.time :=
    Agenda.time_le_of_lt ((List.pairwise_cons.1 timetable.ascending).1 x mem)
  rw [show max (max a.now due.time) x.1.time = max a.now x.1.time by omega]

/-- It is enough that as many jobs may run as runs are due. -/
theorem exists_drains (atRest : a.AtRest) (noticed : a.Exceeds → a.overflowed = true)
    (count : target ≤ Count.top) (enough : a.dueRuns target ≤ fuel) :
    ∃ runs b, Drains fuel target a runs b := by
  have calm : (aside fun _ (_ : τ) _ (_ : Unit) => ()).Calm := calm_aside _
  induction fuel generalizing a with
  | zero => exact ⟨[], a, drains_nil atRest noticed (calm.popDue?_drain (s := (a, ())) enough)⟩
  | succ fuel ih =>
    cases next : a.popDue? target with
    | none => exact ⟨[], a, drains_nil atRest noticed next⟩
    | some found =>
      obtain ⟨due, entry, rest⟩ := found
      have fewer := calm.dueRuns_runEntry_lt (s := (a, ())) next
      rw [show (aside _).setAgenda (rest.reach due.time) (a, ()) = (rest.reach due.time, ()) from rfl,
        runEntry_aside] at fewer
      obtain ⟨reached, entries, -⟩ := Agenda.of_popDue?_eq_some next
      have noticed' : ((rest.reach due.time).serve due entry).Exceeds →
          ((rest.reach due.time).serve due entry).overflowed = true := by
        rintro ⟨x, mem, exceeds⟩
        rw [atRest.overflowed_serve next (reached.trans count)]
        rcases (atRest.mem_entries_serve next).1 mem with ⟨period, every, rfl⟩ | mem
        · exact .inr ⟨period, every, exceeds⟩
        · exact .inl (noticed ⟨x, entries ▸ List.mem_cons_of_mem _ mem, exceeds⟩)
      obtain ⟨runs, b, later⟩ :=
        ih (atRest.serve next) noticed' (Nat.lt_succ_iff.1 (fewer.trans_le enough))
      exact ⟨_, b, later.cons atRest count next⟩

/-- Moving the clock on by `ms` runs the timetable up to the time reached and leaves `b`, whatever the jobs
do. Each finds the clock at its date, or where it was if that is later. Of `ms`, the low 64 bits count. -/
structure Advances (ms : Nat) (a : Agenda τ) (runs : List (Due × τ)) (b : Agenda τ) : Prop where
  timetable : a.Timetable (a.now + Count.wrap ms) runs
  leaves : a.Leaves (a.now + Count.wrap ms) b
  now : b.now = a.now + Count.wrap ms
  overflowed_iff : b.overflowed = true ↔ b.Exceeds
  advance_eq : ∀ {ω : Type} (act : Nat → τ → Nat → ω → ω) (w : ω), (aside act).advance ms (a, w) =
    (b, runs.foldl (fun w x => act x.1.id x.2 (max a.now x.1.time) w) w)

theorem exists_advances (atRest : a.AtRest) (inRange : a.InRange) {ms : Nat}
    (readable : a.now + Count.wrap ms ≤ Count.top) : ∃ runs b, Advances ms a runs b := by
  obtain ⟨runs, b, drains⟩ := exists_drains atRest (fun exceeds => absurd exceeds inRange.not_exceeds)
    readable (Nat.le_refl (a.dueRuns (a.now + Count.wrap ms)))
  have le_now := drains.le_now
  have now_le := drains.now_le
  have leaves := drains.leaves
  refine ⟨runs, b.reach (a.now + Count.wrap ms), drains.timetable,
    ⟨leaves.nextId, leaves.running, leaves.cancelled, leaves.mem_iff⟩, ?_, ?_, fun act w => ?_⟩
  · change max b.now (a.now + Count.wrap ms) = _
    omega
  · rw [Agenda.overflowed_reach, drains.overflowed_iff, inRange.not_overflowed]
    simp [Nat.not_lt.2 readable, Agenda.Exceeds]
  · change (aside act).advanceTo (a.dueRuns (a.now + Count.wrap ms)) (a.now + Count.wrap ms) (a, w) = _
    rw [advanceTo, drains.drain_eq]
    rfl

/-- Moving the clock on takes a time that is too great if the time to be reached is, or the next date of
some job. -/
theorem overflowed_advance_iff (atRest : a.AtRest) (inRange : a.InRange) {ms : Nat} :
    ((aside act).advance ms (a, w)).1.overflowed = true ↔ a.Overruns (a.now + Count.wrap ms) := by
  rcases Nat.lt_or_ge Count.top (a.now + Count.wrap ms) with exceeds | readable
  · refine iff_of_true ?_ (.inl exceeds)
    exact (Agenda.overflowed_reach _).2 (.inr exceeds)
  · obtain ⟨runs, b, advances⟩ := exists_advances atRest inRange readable
    rw [advances.advance_eq, advances.overflowed_iff, advances.leaves.exceeds_iff readable]

/-- What is left is in range again, unless a time was too great. -/
theorem Advances.inRange {ms : Nat} {runs : List (Due × τ)} {b : Agenda τ}
    (advances : Advances ms a runs b) (within : ¬a.Overruns (a.now + Count.wrap ms)) : b.InRange := by
  have readable : a.now + Count.wrap ms ≤ Count.top := Nat.not_lt.1 fun exceeds => within (.inl exceeds)
  have not_exceeds : ¬b.Exceeds := mt (advances.leaves.exceeds_iff readable).1 within
  exact Agenda.inRange_of_not_exceeds (advances.now ▸ readable) not_exceeds
    (Bool.eq_false_iff.2 (mt advances.overflowed_iff.1 not_exceeds))

/-- Two moves of the clock run one timetable after the other. -/
theorem Advances.append {first second ms : Nat} {runs runs' : List (Due × τ)} {b c : Agenda τ}
    (advances : Advances first a runs b) (advances' : Advances second b runs' c)
    (sum : Count.wrap first + Count.wrap second = Count.wrap ms) :
    a.Timetable (a.now + Count.wrap ms) (runs ++ runs') ∧
      a.Leaves (a.now + Count.wrap ms) c ∧ c.now = a.now + Count.wrap ms ∧
        ∀ {ω : Type} (act : Nat → τ → Nat → ω → ω) (w : ω),
          (aside act).advance second ((aside act).advance first (a, w)) =
            (c, (runs ++ runs').foldl (fun w x => act x.1.id x.2 (max a.now x.1.time) w) w) := by
  have timetable' := advances'.timetable
  have leaves' := advances'.leaves
  have now' := advances'.now
  rw [advances.now, Nat.add_assoc, sum] at timetable' leaves' now'
  have le : a.now + Count.wrap first ≤ a.now + Count.wrap ms := by omega
  refine ⟨advances.timetable.append advances.leaves timetable' le, advances.leaves.trans leaves' le,
    now', fun act w => ?_⟩
  rw [advances.advance_eq, advances'.advance_eq, List.foldl_append]
  congr 1
  refine List.foldl_ext _ _ _ fun w x mem => ?_
  -- What is left for the second move falls after the time that the first one reached.
  have later : a.now + Count.wrap first < x.1.time := by
    obtain ⟨-, y, queued, -, falls⟩ := (timetable'.mem_iff x.1 x.2).1 mem
    exact ((advances.leaves.exists_falls_iff fun _ => True).1 ⟨y, queued, trivial, falls⟩).1
  rw [advances.now, show max (a.now + Count.wrap first) x.1.time = max a.now x.1.time by omega]

/-- Moving the clock on runs the timetable up to the time reached and leaves what falls after it, whatever
the jobs do beside the agenda, unless that time or the next date of a job is too great for a count: at
that the program stops. Moving it in two parts does the same. Of the time that goes by, the low 64 bits
count. -/
theorem advance_follows_timetable (atRest : a.AtRest) (inRange : a.InRange) (ms : Nat) :
    (∀ {ω : Type} (act : Nat → τ → Nat → ω → ω) (w : ω),
      ((aside act).advance ms (a, w)).1.overflowed = true ↔ a.Overruns (a.now + Count.wrap ms)) ∧
    (¬a.Overruns (a.now + Count.wrap ms) → ∃ runs b, Advances ms a runs b ∧ b.AtRest ∧ b.InRange ∧
      ∀ {ω : Type} (act : Nat → τ → Nat → ω → ω) (w : ω) (first second : Nat),
        Count.wrap first + Count.wrap second = Count.wrap ms →
          ((aside act).advance first (a, w)).1.overflowed = false ∧
            (aside act).advance second ((aside act).advance first (a, w)) =
              (aside act).advance ms (a, w)) := by
  refine ⟨fun act w => overflowed_advance_iff atRest inRange, fun within => ?_⟩
  have readable : a.now + Count.wrap ms ≤ Count.top := Nat.not_lt.1 fun exceeds => within (.inl exceeds)
  obtain ⟨runs, b, advances⟩ := exists_advances atRest inRange readable
  have left := advances.inRange within
  refine ⟨runs, b, advances, advances.leaves.atRest atRest, left, fun act w first second sum => ?_⟩
  have le : a.now + Count.wrap first ≤ a.now + Count.wrap ms := by omega
  have within₁ := Agenda.not_overruns_of_le le within
  obtain ⟨runs₁, b₁, advances₁⟩ := exists_advances atRest inRange (le.trans readable)
  have inRange₁ := advances₁.inRange within₁
  have readable₂ : b₁.now + Count.wrap second ≤ Count.top := by rw [advances₁.now]; omega
  obtain ⟨runs₂, b₂, advances₂⟩ :=
    exists_advances (advances₁.leaves.atRest atRest) inRange₁ readable₂
  obtain ⟨timetable, leaves, now, parts⟩ := advances₁.append advances₂ sum
  have not_exceeds : ¬b₂.Exceeds := mt (leaves.exceeds_iff readable).1 within
  have not_overflowed : b₂.overflowed = false :=
    Bool.eq_false_iff.2 (mt advances₂.overflowed_iff.1 not_exceeds)
  refine ⟨?_, ?_⟩
  · rw [advances₁.advance_eq]
    exact inRange₁.not_overflowed
  · rw [parts, advances.advance_eq, timetable.unique advances.timetable,
      leaves.unique advances.leaves (now.trans advances.now.symm)
        (not_overflowed.trans left.not_overflowed.symm)]

/-- A clock that was set past two dates of a repeating job. Both are made up for, then it runs together
with one that runs once, first as it was entered first. -/
theorem advance_follows_timetable_overdue :
    let a := ((Agenda.startingAt 1000).enter 100 (some 100) "tick" |>.enter 300 none "alarm").setClock 1250
    a.AtRest ∧ a.InRange ∧ ¬a.Overruns 1350 ∧ ∃ b, Advances 100 a
      [(⟨1100, 0⟩, "tick"), (⟨1200, 0⟩, "tick"), (⟨1300, 0⟩, "tick"), (⟨1300, 1⟩, "alarm")] b := by
  intro a
  have entries : a.entries = [(⟨1100, 0⟩, ⟨"tick", some 100⟩), (⟨1300, 1⟩, ⟨"alarm", none⟩)] := by
    decide +kernel
  have atRest : a.AtRest := ⟨by decide +kernel, rfl, rfl⟩
  have inRange : a.InRange := ⟨by decide, by simp [entries, Count.top], by decide +kernel⟩
  have within : ¬a.Overruns 1350 := by
    have top : Count.top = 18446744073709551615 := rfl
    rintro (exceeds | ⟨x, mem, date, next, exceeds⟩)
    · omega
    · rw [entries] at mem
      have first := next.first ⟨1400, x.1.id⟩
      have falls := next.falls
      have after := next.after
      simp only [List.mem_cons, List.not_mem_nil, or_false] at mem
      rcases mem with rfl | rfl
      · have := first ((Agenda.falls_of_every rfl).2 ⟨rfl, 3, rfl⟩) (by decide)
        simp only at this
        omega
      · rw [(Agenda.falls_of_once rfl).1 falls] at after
        exact absurd after (by decide)
  obtain ⟨runs, b, advances, -⟩ := (advance_follows_timetable atRest inRange 100).2 within
  have timetable : a.Timetable 1350
      [(⟨1100, 0⟩, "tick"), (⟨1200, 0⟩, "tick"), (⟨1300, 0⟩, "tick"), (⟨1300, 1⟩, "alarm")] := by
    refine ⟨by decide, fun date job => ?_⟩
    obtain ⟨time, id⟩ := date
    have dates : (time = 1100 ∧ id = 0) ∧ job = "tick" ∨ (time = 1200 ∧ id = 0) ∧ job = "tick" ∨
        (time = 1300 ∧ id = 0) ∧ job = "tick" ∨ (time = 1300 ∧ id = 1) ∧ job = "alarm" ↔
          time ≤ 1350 ∧ ("tick" = job ∧ id = 0 ∧ (∃ k, time = 1100 + k * 100) ∨
            "alarm" = job ∧ id = 1 ∧ time = 1300) := by
      constructor
      · rintro (⟨⟨rfl, rfl⟩, rfl⟩ | ⟨⟨rfl, rfl⟩, rfl⟩ | ⟨⟨rfl, rfl⟩, rfl⟩ | ⟨⟨rfl, rfl⟩, rfl⟩)
        · exact ⟨by decide, .inl ⟨rfl, rfl, 0, rfl⟩⟩
        · exact ⟨by decide, .inl ⟨rfl, rfl, 1, rfl⟩⟩
        · exact ⟨by decide, .inl ⟨rfl, rfl, 2, rfl⟩⟩
        · exact ⟨by decide, .inr ⟨rfl, rfl, rfl⟩⟩
      · rintro ⟨reached, ⟨rfl, rfl, k, rfl⟩ | ⟨rfl, rfl, rfl⟩⟩
        · obtain rfl | rfl | rfl : k = 0 ∨ k = 1 ∨ k = 2 := by omega
          all_goals simp
        · simp
    simpa [entries, Agenda.Falls] using dates
  rw [← advances.timetable.unique timetable]
  exact ⟨atRest, inRange, within, b, advances⟩

/-- A job that is due at 1 and then every 2 ^ 64 - 1 milliseconds is to run once when 10 milliseconds go
by, and its next date is no count: the program stops. -/
theorem not_advance_follows_timetable :
    let a := (Agenda.startingAt 1).enter 0 (some Count.top) "tick"
    a.AtRest ∧ a.InRange ∧ a.now + 10 ≤ Count.top ∧ a.Timetable (a.now + 10) [(⟨1, 0⟩, "tick")] ∧
      ∀ {ω : Type} (act : Nat → String → Nat → ω → ω) (w : ω),
        ((aside act).advance 10 (a, w)).1.overflowed = true := by
  intro a
  have entries : a.entries = [(⟨1, 0⟩, ⟨"tick", some Count.top⟩)] := by decide +kernel
  have atRest : a.AtRest := ⟨by decide +kernel, rfl, rfl⟩
  have inRange : a.InRange := ⟨by decide, by rw [entries]; decide, rfl⟩
  have dates (date : Due) : Agenda.Falls ⟨1, 0⟩ ⟨"tick", some Count.top⟩ date ↔
      date.id = 0 ∧ ∃ k, date.time = 1 + k * Count.top := by
    rw [Agenda.falls_of_every rfl, show max Count.top 1 = Count.top from rfl]
  have top : Count.top = 18446744073709551615 := rfl
  refine ⟨atRest, inRange, by decide, ⟨by decide, fun date job => ?_⟩, fun act w => ?_⟩
  · rw [entries]
    simp only [List.mem_singleton, exists_eq_left, dates, Prod.mk.injEq, Due.ext_iff]
    constructor
    · rintro ⟨⟨time, id⟩, rfl⟩
      exact ⟨by rw [time]; decide, rfl, id, 0, by rw [time, Nat.zero_mul]⟩
    · rintro ⟨reached, rfl, id, k, time⟩
      refine ⟨⟨?_, id⟩, rfl⟩
      have now : a.now = 1 := rfl
      cases k with
      | zero => omega
      | succ k =>
        rw [Nat.succ_mul] at time
        omega
  · rw [overflowed_advance_iff atRest inRange]
    refine .inr ⟨_, entries ▸ List.mem_singleton_self _, ⟨1 + Count.top, 0⟩,
      ⟨(dates _).2 ⟨rfl, 1, by rw [Nat.one_mul]⟩, by decide, fun date falls after => ?_⟩, by decide⟩
    obtain ⟨-, k, time⟩ := (dates date).1 falls
    change 1 + Count.wrap 10 < date.time at after
    change 1 + Count.top ≤ date.time
    have ten : Count.wrap 10 = 10 := rfl
    cases k with
    | zero => omega
    | succ k =>
      rw [Nat.succ_mul] at time
      omega

end Host

end SealedStream
