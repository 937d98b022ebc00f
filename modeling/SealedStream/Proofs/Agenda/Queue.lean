import SealedStream.Proofs.Agenda

/-!
# What is queued

Every queued job has a number of its own. So entering a job and queueing it again add it to the queue
and take the place of no other, and what is left when a job is taken has other numbers.

## Main definitions

* `Agenda.Distinct` — no two queued jobs have the same number.
* `Agenda.AtRest` — besides, no job is being run.
* `Agenda.launch`, `Agenda.land` — the two ends of the run of a job, repeating or not.

## Main statements

* `Agenda.mem_entries_enter_iff`, `Agenda.mem_entries_land_iff` — what is queued afterwards.
* `Agenda.Distinct.ne_of_entries_eq` — the jobs that follow the first one have other numbers.
-/

namespace SealedStream.Agenda

open Std

variable {τ : Type} {a : Agenda τ} {due : Due} {entry : Entry τ} {x : Due × Entry τ}

/-- No two queued jobs have the same number. -/
def Distinct (a : Agenda τ) : Prop := ∀ x ∈ a.entries, ∀ y ∈ a.entries, x.1.id = y.1.id → x = y

instance [DecidableEq τ] : Decidable a.Distinct :=
  inferInstanceAs (Decidable (∀ x ∈ a.entries, ∀ y ∈ a.entries, x.1.id = y.1.id → x = y))

/-- No job is being run, and no two queued jobs have the same number. -/
structure AtRest (a : Agenda τ) : Prop where
  distinct : a.Distinct
  running : a.running = ∅
  cancelled : a.cancelled = ∅

theorem Distinct.of_subset {b : Agenda τ} (distinct : a.Distinct)
    (within : ∀ x ∈ b.entries, x ∈ a.entries) : b.Distinct := fun x memX y memY =>
  distinct x (within x memX) y (within y memY)

/-- A queue may get one more job that has another number. -/
theorem Distinct.of_subset_cons {b : Agenda τ} (distinct : a.Distinct)
    (others : ∀ y ∈ a.entries, y.1.id ≠ x.1.id) (within : ∀ y ∈ b.entries, y = x ∨ y ∈ a.entries) :
    b.Distinct := by
  intro y memY z memZ same
  rcases within y memY with rfl | memY <;> rcases within z memZ with rfl | memZ
  · rfl
  · exact absurd same.symm (others z memZ)
  · exact absurd same (others y memY)
  · exact distinct y memY z memZ same

theorem mem_entries_insert_iff (others : ∀ x ∈ a.entries, x.1.id ≠ due.id) :
    x ∈ ({ a with queue := a.queue.insert due entry } : Agenda τ).entries ↔
      x = (due, entry) ∨ x ∈ a.entries := by
  obtain ⟨date, entry'⟩ := x
  have free : (due, entry') ∉ a.entries := fun mem => others _ mem rfl
  simp only [mem_entries, ExtTreeMap.getElem?_insert, LawfulEqOrd.compare_eq_iff_eq] at free ⊢
  grind

theorem mem_entries_enter_iff {delay : Nat} {every : Option Nat} {job : τ}
    (fresh : ∀ x ∈ a.entries, x.1.id < a.nextId) :
    x ∈ (a.enter delay every job).entries ↔
      x = (⟨a.now + Count.wrap delay, a.nextId⟩, ⟨job, every.map Count.wrap⟩) ∨ x ∈ a.entries :=
  mem_entries_insert_iff fun x mem => Nat.ne_of_lt (fresh x mem)

@[simp] theorem running_cancel {id : Nat} : (a.cancel id).running = a.running := by
  unfold cancel
  split <;> rfl

@[simp] theorem mem_cancelled_cancel {id id' : Nat} :
    id' ∈ (a.cancel id).cancelled ↔ id' ∈ a.cancelled ∨ id = id' ∧ id ∈ a.running := by
  unfold cancel
  split <;> simp_all [or_comm]

/-- Cancelling takes the job off the queue, unless it is a repeating one that is being run. -/
theorem mem_entries_cancel_iff {id : Nat} :
    x ∈ (a.cancel id).entries ↔ x ∈ a.entries ∧ (x.1.id = id → id ∈ a.running) := by
  by_cases running : id ∈ a.running
  · simp [cancel, running, entries]
  · simp [entries_cancel running, running]

@[simp] theorem running_reckon (time : Nat) : (a.reckon time).running = a.running := rfl

@[simp] theorem running_reach (time : Nat) : (a.reach time).running = a.running := rfl

@[simp] theorem cancelled_reach (time : Nat) : (a.reach time).cancelled = a.cancelled := rfl

/-- A job begins to run. -/
def launch (due : Due) (entry : Entry τ) (a : Agenda τ) : Agenda τ :=
  entry.every.elim a fun _ => a.begin due.id

/-- A job has run. -/
def land (due : Due) (entry : Entry τ) (a : Agenda τ) : Agenda τ :=
  entry.every.elim a fun period => a.finish due entry period

@[simp] theorem now_launch : (a.launch due entry).now = a.now := by
  unfold launch
  cases entry.every <;> rfl

@[simp] theorem nextId_launch : (a.launch due entry).nextId = a.nextId := by
  unfold launch
  cases entry.every <;> rfl

@[simp] theorem entries_launch : (a.launch due entry).entries = a.entries := by
  unfold launch
  cases entry.every <;> rfl

@[simp] theorem cancelled_launch : (a.launch due entry).cancelled = a.cancelled := by
  unfold launch
  cases entry.every <;> rfl

@[simp] theorem mem_running_launch {id : Nat} : id ∈ (a.launch due entry).running ↔
    id ∈ a.running ∨ due.id = id ∧ entry.every.isSome := by
  unfold launch
  cases entry.every <;> simp [begin, or_comm]

@[simp] theorem now_land : (a.land due entry).now = a.now := by
  unfold land
  cases entry.every <;> simp

@[simp] theorem nextId_land : (a.land due entry).nextId = a.nextId := by
  unfold land finish
  cases entry.every with
  | none => rfl
  | some period =>
    rw [Option.elim_some]
    split <;> rfl

@[simp] theorem mem_running_land {id : Nat} : id ∈ (a.land due entry).running ↔
    id ∈ a.running ∧ (due.id = id → entry.every = none) := by
  unfold land finish
  cases entry.every with
  | none => simp
  | some period =>
    rw [Option.elim_some]
    split <;> simp [and_comm]

@[simp] theorem mem_cancelled_land {id : Nat} : id ∈ (a.land due entry).cancelled ↔
    id ∈ a.cancelled ∧ (due.id = id → entry.every = none) := by
  unfold land finish
  cases entry.every with
  | none => simp
  | some period =>
    rw [Option.elim_some]
    split
    · simp [and_comm]
    · rename_i kept
      exact ⟨fun mem => ⟨mem, fun same => absurd (same ▸ mem) kept⟩, And.left⟩

@[simp] theorem overflowed_launch : (a.launch due entry).overflowed = a.overflowed := by
  unfold launch
  cases entry.every <;> rfl

theorem overflowed_land : (a.land due entry).overflowed = true ↔ a.overflowed = true ∨
    due.id ∉ a.cancelled ∧
      ∃ period, entry.every = some period ∧ Count.top < due.time + max period 1 := by
  unfold land
  cases entry.every <;> simp [overflowed_finish]

/-- A job that has run is queued one period later if it repeats and was not cancelled. -/
theorem mem_entries_land_iff (others : ∀ x ∈ a.entries, x.1.id ≠ due.id) :
    x ∈ (a.land due entry).entries ↔
      (due.id ∉ a.cancelled ∧
        ∃ period, entry.every = some period ∧ x = (⟨due.time + max period 1, due.id⟩, entry)) ∨
        x ∈ a.entries := by
  cases every : entry.every with
  | none => simp [land, every]
  | some period =>
    simp only [land, every, Option.elim_some, Option.some.injEq, exists_eq_left']
    unfold finish
    split
    · rename_i cancelled
      exact (or_iff_right fun found => found.1 cancelled).symm
    · rename_i kept
      rw [and_iff_right kept]
      exact mem_entries_insert_iff others

theorem Distinct.enter {delay : Nat} {every : Option Nat} {job : τ} (distinct : a.Distinct)
    (fresh : ∀ x ∈ a.entries, x.1.id < a.nextId) : (a.enter delay every job).Distinct :=
  distinct.of_subset_cons (fun x mem => Nat.ne_of_lt (fresh x mem)) fun _ =>
    (mem_entries_enter_iff fresh).1

theorem Distinct.land (distinct : a.Distinct) (others : ∀ x ∈ a.entries, x.1.id ≠ due.id) :
    (a.land due entry).Distinct := by
  cases every : entry.every with
  | none => simpa [Agenda.land, every]
  | some period =>
    refine distinct.of_subset_cons (x := (⟨due.time + max period 1, due.id⟩, entry)) others
      fun y mem => ?_
    rcases (mem_entries_land_iff others).1 mem with ⟨-, period', every', rfl⟩ | mem
    · rw [every, Option.some.injEq] at every'
      exact .inl (by rw [every'])
    · exact .inr mem

/-- The jobs that follow the first one have other numbers. -/
theorem Distinct.ne_of_entries_eq {later : List (Due × Entry τ)} (distinct : a.Distinct)
    (entries : a.entries = x :: later) : ∀ y ∈ later, y.1.id ≠ x.1.id := by
  intro y mem same
  obtain rfl : y = x := distinct y (entries ▸ List.mem_cons_of_mem _ mem) x
    (entries ▸ List.mem_cons_self) same
  have ordered := a.entries_ordered
  rw [entries, List.pairwise_cons] at ordered
  simpa using ordered.1 y mem

end SealedStream.Agenda
