import Mathlib.Data.Nat.Find
import SealedStream.Proofs.Agenda

/-!
# The dates of a job

A queued job that runs once falls on the time at which it is due, a repeating one on every period from
there on. Periods are at least one millisecond.

## Main definitions

* `Agenda.Falls` — a queued job is to run at a date.
* `Agenda.FallsNext` — the first such date after a time.

## Main statements

* `Agenda.falls_iff` — a job falls on the date for which it is queued, and then on those for which it is
  queued again.
* `Agenda.Falls.exists_next`, `Agenda.FallsNext.falls_iff` — what falls after a time falls from the first
  date after it on.
-/

namespace SealedStream.Agenda

attribute [ext] Due

variable {τ : Type} {target : Nat} {due date : Due} {entry : Entry τ}

/-- A job that is queued for `due` is to run at `date`. -/
def Falls (due : Due) (entry : Entry τ) (date : Due) : Prop :=
  date.id = due.id ∧
    match entry.every with
    | none => date.time = due.time
    | some period => ∃ k, date.time = due.time + k * max period 1

/-- The first date after `target` of a job that is queued for `due`. -/
structure FallsNext (target : Nat) (due : Due) (entry : Entry τ) (date : Due) : Prop where
  falls : Falls due entry date
  after : target < date.time
  first : ∀ date', Falls due entry date' → target < date'.time → date.time ≤ date'.time

theorem falls_of_once (once : entry.every = none) : Falls due entry date ↔ date = due := by
  simp only [Falls, once, Due.ext_iff]
  exact And.comm

theorem falls_of_every {period : Nat} (every : entry.every = some period) :
    Falls due entry date ↔ date.id = due.id ∧ ∃ k, date.time = due.time + k * max period 1 := by
  simp only [Falls, every]

theorem falls_self : Falls due entry due := by
  cases every : entry.every with
  | none => exact (falls_of_once every).2 rfl
  | some period => exact (falls_of_every every).2 ⟨rfl, 0, by rw [Nat.zero_mul, Nat.add_zero]⟩

theorem Falls.time_le (falls : Falls due entry date) : due.time ≤ date.time := by
  cases every : entry.every with
  | none => rw [(falls_of_once every).1 falls]
  | some period =>
    obtain ⟨-, k, time⟩ := (falls_of_every every).1 falls
    rw [time]
    exact Nat.le_add_right ..

/-- A job falls on the date for which it is queued. A repeating one falls also where it does when it is
queued again. -/
theorem falls_iff : Falls due entry date ↔ date = due ∨
    ∃ period, entry.every = some period ∧ Falls ⟨due.time + max period 1, due.id⟩ entry date := by
  cases every : entry.every with
  | none => simp [falls_of_once every]
  | some period =>
    obtain ⟨time, id⟩ := due
    obtain ⟨time', id'⟩ := date
    simp only [falls_of_every every, Due.mk.injEq, Option.some.injEq, exists_eq_left']
    constructor
    · rintro ⟨same, k, reckoned⟩
      cases k with
      | zero => exact .inl ⟨by omega, same⟩
      | succ k => exact .inr ⟨same, k, by rw [reckoned, Nat.succ_mul]; omega⟩
    · rintro (⟨rfl, rfl⟩ | ⟨same, k, reckoned⟩)
      · exact ⟨rfl, 0, by omega⟩
      · exact ⟨same, k + 1, by rw [reckoned, Nat.succ_mul]; omega⟩

theorem lt_of_time_lt {x y : Due} (before : x.time < y.time) : compare x y = .lt := by
  change compareLex (compareOn Due.time) (compareOn Due.id) x y = .lt
  simp only [compareLex, compareOn, Ordering.then_eq_lt, Nat.compare_eq_lt]
  exact .inl before

/-- What comes before the date for which a job is queued comes before all dates on which it falls. -/
theorem Falls.lt {x : Due} (falls : Falls due entry date) (before : compare x due = .lt) :
    compare x date = .lt := by
  rcases Nat.lt_or_ge due.time date.time with later | at_once
  · exact lt_of_time_lt ((time_le_of_lt before).trans_lt later)
  · have time : date.time = due.time := Nat.le_antisymm at_once falls.time_le
    rwa [Due.ext time falls.1]

/-- If a job falls on some date after `target`, one of these dates is the first, and the job falls on the
others from there on. -/
theorem Falls.exists_next (falls : Falls due entry date) (after : target < date.time) :
    ∃ next, FallsNext target due entry next ∧ Falls next entry date := by
  cases every : entry.every with
  | none =>
    obtain rfl := (falls_of_once every).1 falls
    refine ⟨date, ⟨falls, after, fun date' falls' _ => ?_⟩, falls_self⟩
    rw [(falls_of_once every).1 falls']
  | some period =>
    obtain ⟨same, k, time⟩ := (falls_of_every every).1 falls
    have some_k : ∃ k, target < due.time + k * max period 1 := ⟨k, time ▸ after⟩
    have least : Nat.find some_k ≤ k := Nat.find_min' some_k (time ▸ after)
    refine ⟨⟨due.time + Nat.find some_k * max period 1, due.id⟩,
      ⟨(falls_of_every every).2 ⟨rfl, _, rfl⟩, Nat.find_spec some_k, fun date' falls' after' => ?_⟩,
      (falls_of_every every).2 ⟨same, k - Nat.find some_k, ?_⟩⟩
    · obtain ⟨-, k', time'⟩ := (falls_of_every every).1 falls'
      rw [time'] at after' ⊢
      exact Nat.add_le_add_left (Nat.mul_le_mul_right _ (Nat.find_min' some_k after')) _
    · rw [time, Nat.add_assoc, ← Nat.add_mul, Nat.add_sub_cancel' least]

theorem Falls.trans {next : Due} (first : Falls due entry next) (later : Falls next entry date) :
    Falls due entry date := by
  cases every : entry.every with
  | none =>
    rw [falls_of_once every] at first later ⊢
    rw [later, first]
  | some period =>
    rw [falls_of_every every] at first later ⊢
    obtain ⟨same, k, time⟩ := first
    obtain ⟨same', k', time'⟩ := later
    exact ⟨same'.trans same, k + k', by rw [time', time, Nat.add_assoc, ← Nat.add_mul]⟩

/-- A job that is due later than `target` already is left where it is. -/
theorem fallsNext_iff_of_lt (later : target < due.time) : FallsNext target due entry date ↔ date = due := by
  constructor
  · rintro ⟨falls, after, first⟩
    exact Due.ext (Nat.le_antisymm (first due falls_self later) falls.time_le) falls.1
  · rintro rfl
    exact ⟨falls_self, later, fun date' falls _ => falls.time_le⟩

/-- Of a job that is due, what is left is what is left when it is queued again. -/
theorem fallsNext_iff_of_le (reached : due.time ≤ target) :
    FallsNext target due entry date ↔ ∃ period, entry.every = some period ∧
      FallsNext target ⟨due.time + max period 1, due.id⟩ entry date := by
  have falls_iff' (date' : Due) (after : target < date'.time) : Falls due entry date' ↔
      ∃ period, entry.every = some period ∧ Falls ⟨due.time + max period 1, due.id⟩ entry date' := by
    rw [falls_iff, or_iff_right]
    rintro rfl
    omega
  constructor
  · rintro ⟨falls, after, first⟩
    obtain ⟨period, every, falls⟩ := (falls_iff' date after).1 falls
    exact ⟨period, every, falls, after, fun date' falls' after' =>
      first date' ((falls_iff' date' after').2 ⟨period, every, falls'⟩) after'⟩
  · rintro ⟨period, every, falls, after, first⟩
    refine ⟨(falls_iff' date after).2 ⟨period, every, falls⟩, after, fun date' falls' after' => ?_⟩
    obtain ⟨period', every', falls'⟩ := (falls_iff' date' after').1 falls'
    obtain rfl : period = period' := Option.some.inj (every.symm.trans every')
    exact first date' falls' after'

theorem FallsNext.unique {next next' : Due} (is : FallsNext target due entry next)
    (is' : FallsNext target due entry next') : next = next' := by
  have time : next.time = next'.time :=
    Nat.le_antisymm (is.first _ is'.falls is'.after) (is'.first _ is.falls is.after)
  exact Due.ext time (is.falls.1.trans is'.falls.1.symm)

/-- After `target`, a job falls where it does from its next date on. -/
theorem FallsNext.falls_iff {next : Due} (is : FallsNext target due entry next)
    (after : target < date.time) : Falls next entry date ↔ Falls due entry date := by
  refine ⟨is.falls.trans, fun falls => ?_⟩
  obtain ⟨next', is', falls'⟩ := falls.exists_next after
  rwa [is.unique is']

end SealedStream.Agenda
