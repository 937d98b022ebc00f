import Mathlib.Algebra.Order.BigOperators.Group.List
import Mathlib.Algebra.Order.Ring.Nat
import SealedStream.Agenda.Host
import SealedStream.Proofs.Maps

/-!
# The order in which an agenda runs its jobs

The queue of an agenda is read as a list of entries, the earliest first. The job that runs next is the
head of the list. A host whose jobs leave the agenda alone knows beforehand how many runs fall due, so
its clock never moves past a job that is left waiting.

## Main definitions

* `Agenda.entries` — the queued jobs, in the order in which they are due.
* `Host.Calm` — no job changes the agenda.

## Main statements

* `Agenda.of_popDue?_eq_some`, `Agenda.popDue?_eq_none_iff` — what runs next.
* `Host.Calm.popDue?_drain` — no job that is due is left waiting.
* `Host.drain_induction` — what the jobs that fall due preserve.
-/

namespace SealedStream

open Std

namespace Agenda

variable {τ : Type} {a : Agenda τ} {target : Nat} {due : Due} {entry : Entry τ}

/-- The queued jobs, in the order in which they are due. -/
def entries (a : Agenda τ) : List (Due × Entry τ) := a.queue.toList

theorem mem_entries : (due, entry) ∈ a.entries ↔ a.queue[due]? = some entry :=
  ExtTreeMap.mem_toList_iff_getElem?_eq_some

theorem entries_ordered : a.entries.Pairwise fun x y => compare x.1 y.1 = .lt :=
  ExtTreeMap.ordered_keys_toList

theorem time_le_of_lt {x y : Due} (before : compare x y = .lt) : x.time ≤ y.time := by
  change compareLex (compareOn Due.time) (compareOn Due.id) x y = .lt at before
  simp only [compareLex, compareOn, Ordering.then_eq_lt, Nat.compare_eq_lt, Nat.compare_eq_eq] at before
  omega

@[simp] theorem entries_startingAt (now : Nat) : (startingAt now : Agenda τ).entries = [] := by
  simp [entries, startingAt]

@[simp] theorem entries_reach (time : Nat) : (a.reach time).entries = a.entries := rfl

@[simp] theorem overflowed_reach (time : Nat) :
    (a.reach time).overflowed = true ↔ a.overflowed = true ∨ Count.top < time := by
  simp [reach, reckon]

@[simp] theorem overflowed_enter {delay : Nat} {every : Option Nat} {job : τ} :
    (a.enter delay every job).overflowed = true ↔
      a.overflowed = true ∨ Count.top < a.now + Count.wrap delay := by
  simp [enter, reckon]

/-- A job that was cancelled while it ran has no next time. -/
theorem overflowed_finish {period : Nat} : (a.finish due entry period).overflowed = true ↔
    a.overflowed = true ∨ due.id ∉ a.cancelled ∧ Count.top < due.time + max period 1 := by
  unfold finish reckon
  split <;> simp_all

@[simp] theorem now_finish (due : Due) (entry : Entry τ) (period : Nat) :
    (a.finish due entry period).now = a.now := by
  unfold finish
  split <;> rfl

theorem mem_entries_enter {delay : Nat} {every : Option Nat} {job : τ} {x : Due × Entry τ}
    (mem : x ∈ (a.enter delay every job).entries) :
    x = (⟨a.now + Count.wrap delay, a.nextId⟩, ⟨job, every.map Count.wrap⟩) ∨ x ∈ a.entries := by
  obtain ⟨due, entry⟩ := x
  simp only [mem_entries, enter, ExtTreeMap.getElem?_insert, LawfulEqOrd.compare_eq_iff_eq] at mem ⊢
  grind

theorem entries_enter_of_nil {delay : Nat} {every : Option Nat} {job : τ} (none : a.entries = []) :
    (a.enter delay every job).entries =
      [(⟨a.now + Count.wrap delay, a.nextId⟩, ⟨job, every.map Count.wrap⟩)] :=
  toList_insert_of_nil none ..

theorem entries_cancel {id : Nat} (idle : id ∉ a.running) :
    (a.cancel id).entries = a.entries.filter fun x => x.1.id ≠ id := by
  simp [entries, cancel, idle]

@[simp] theorem nextId_cancel {id : Nat} : (a.cancel id).nextId = a.nextId := by
  unfold cancel
  split <;> rfl

/-- The first job in the queue is next, if it is due. -/
theorem of_popDue?_eq_some {rest : Agenda τ} (next : a.popDue? target = some (due, entry, rest)) :
    due.time ≤ target ∧ a.entries = (due, entry) :: rest.entries ∧
      rest = { a with queue := rest.queue } := by
  simp only [popDue?, minEntry?_eq_head?_toList] at next
  cases eq : a.queue.toList with
  | nil => simp [eq] at next
  | cons x later =>
    simp only [eq, List.head?_cons, Option.ite_none_right_eq_some, Option.some.injEq,
      Prod.mk.injEq] at next
    obtain ⟨time, rfl, rfl, rfl⟩ := next
    exact ⟨time, by rw [entries, entries, toList_erase_first eq, eq], rfl⟩

theorem popDue?_eq_none_iff : a.popDue? target = none ↔ ∀ x ∈ a.entries, target < x.1.time := by
  have ordered : a.entries.Pairwise _ := a.entries_ordered
  rw [popDue?, show a.queue.minEntry? = a.entries.head? from minEntry?_eq_head?_toList _]
  cases eq : a.entries with
  | nil => simp
  | cons x rest =>
    rw [eq, List.pairwise_cons] at ordered
    simp only [List.head?_cons, ite_eq_right_iff, reduceCtorEq, imp_false, Nat.not_le,
      List.forall_mem_cons]
    exact ⟨fun late => ⟨late, fun y mem => late.trans_le (time_le_of_lt (ordered.1 y mem))⟩, And.left⟩

/-! ### The number of runs -/

theorem dueRuns_eq_sum :
    a.dueRuns target = (a.entries.map fun x => runsUntil target x.1 x.2).sum := by
  have shifted (l : List (Due × Entry τ)) (n : Nat) :
      l.foldl (fun n x => n + runsUntil target x.1 x.2) n =
        n + (l.map fun x => runsUntil target x.1 x.2).sum := by
    induction l generalizing n with
    | nil => rfl
    | cons x l ih => rw [List.foldl_cons, ih, List.map_cons, List.sum_cons, Nat.add_assoc]
  rw [dueRuns, ExtTreeMap.foldl_eq_foldl_toList, shifted, Nat.zero_add]
  rfl

theorem runsUntil_eq_zero_iff : runsUntil target due entry = 0 ↔ target < due.time := by
  grind [runsUntil]

/-- A job that is queued again has one run less before it. -/
theorem runsUntil_later {period : Nat} (every : entry.every = some period)
    (due_now : due.time ≤ target) :
    runsUntil target ⟨due.time + max period 1, due.id⟩ entry + 1 = runsUntil target due entry := by
  simp only [runsUntil, every, Nat.not_lt.2 due_now, if_false]
  have positive : 0 < max period 1 := by omega
  generalize max period 1 = step at positive
  split
  · rw [Nat.div_eq_of_lt (by omega)]
  · rw [Nat.div_eq_sub_div positive (show step ≤ target - due.time by omega), Nat.sub_sub]

theorem dueRuns_finish_le {period : Nat} :
    (a.finish due entry period).dueRuns target ≤
      runsUntil target ⟨due.time + max period 1, due.id⟩ entry + a.dueRuns target := by
  unfold finish
  split
  · exact Nat.le_add_left ..
  · simp only [dueRuns_eq_sum, entries]
    rw [((toList_insert_perm ..).map _).sum_eq, List.map_cons, List.sum_cons, toList_erase]
    exact Nat.add_le_add_left ((List.filter_sublist.map _).sum_le_sum fun _ _ => Nat.zero_le _) _

theorem mem_entries_finish {period : Nat} {x : Due × Entry τ}
    (mem : x ∈ (a.finish due entry period).entries) :
    x = (⟨due.time + max period 1, due.id⟩, entry) ∨ x ∈ a.entries := by
  obtain ⟨due', entry'⟩ := x
  unfold finish at mem
  split at mem
  · exact .inr mem
  · simp only [mem_entries, ExtTreeMap.getElem?_insert, LawfulEqOrd.compare_eq_iff_eq] at mem ⊢
    grind

theorem entries_finish_of_nil {period : Nat} (none : a.entries = []) (kept : due.id ∉ a.cancelled) :
    (a.finish due entry period).entries = [(⟨due.time + max period 1, due.id⟩, entry)] := by
  rw [finish, if_neg kept]
  exact toList_insert_of_nil none ..

end Agenda

/-! ## Running the jobs -/

namespace Host

variable {σ τ : Type} {h : Host σ τ} {target fuel : Nat} {due : Due} {entry : Entry τ}
  {rest : Agenda τ} {s : σ}

/-- What holds at first and is preserved by each job that falls due holds after all of them. -/
theorem drain_induction (p : σ → Prop)
    (step : ∀ s due entry rest, p s → (h.agenda s).popDue? target = some (due, entry, rest) →
      p (h.runEntry due entry (h.setAgenda (rest.reach due.time) s))) (start : p s) :
    p (h.drain fuel target s) := by
  induction fuel generalizing s with
  | zero => exact start
  | succ fuel ih =>
    unfold drain
    split
    · exact start
    · exact ih (step _ _ _ _ start ‹_›)

/-- The agenda is where it was put, and no job changes it. -/
structure Calm (h : Host σ τ) : Prop where
  agenda_setAgenda : ∀ a s, h.agenda (h.setAgenda a s) = a
  agenda_run : ∀ id job s, h.agenda (h.run id job s) = h.agenda s

namespace Calm

/-- A job that runs once leaves the agenda alone; one that runs again is queued again. -/
theorem agenda_runEntry (calm : h.Calm) :
    h.agenda (h.runEntry due entry s) =
      entry.every.elim (h.agenda s) fun period =>
        ((h.agenda s).begin due.id).finish due entry period := by
  unfold runEntry
  split <;> rename_i every
  · rw [every, calm.agenda_run, Option.elim_none]
  · rw [every, modifyAgenda, calm.agenda_setAgenda, calm.agenda_run, modifyAgenda,
      calm.agenda_setAgenda, Option.elim_some]

/-- Each run leaves fewer runs to be done. -/
theorem dueRuns_runEntry_lt (calm : h.Calm)
    (next : (h.agenda s).popDue? target = some (due, entry, rest)) :
    (h.agenda (h.runEntry due entry (h.setAgenda (rest.reach due.time) s))).dueRuns target <
      (h.agenda s).dueRuns target := by
  obtain ⟨time, entries, -⟩ := Agenda.of_popDue?_eq_some next
  have before : (h.agenda s).dueRuns target =
      Agenda.runsUntil target due entry + rest.dueRuns target := by
    simp [Agenda.dueRuns_eq_sum, entries]
  rw [calm.agenda_runEntry, calm.agenda_setAgenda, before]
  cases every : entry.every with
  | none =>
    have runs : Agenda.runsUntil target due entry ≠ 0 := by
      rw [ne_eq, Agenda.runsUntil_eq_zero_iff]
      omega
    change rest.dueRuns target < _
    omega
  | some period =>
    have fewer := Agenda.runsUntil_later every time
    have queued : (((rest.reach due.time).begin due.id).finish due entry period).dueRuns target ≤
        _ + rest.dueRuns target := Agenda.dueRuns_finish_le
    change Agenda.dueRuns target (Agenda.finish ..) < _
    omega

/-- If as many jobs may run as runs are due, none of them is left waiting. -/
theorem popDue?_drain (calm : h.Calm) (enough : (h.agenda s).dueRuns target ≤ fuel) :
    (h.agenda (h.drain fuel target s)).popDue? target = none := by
  induction fuel generalizing s with
  | zero =>
    rw [drain, Agenda.popDue?_eq_none_iff]
    intro x mem
    rw [Nat.le_zero, Agenda.dueRuns_eq_sum, List.sum_eq_zero_iff_forall_eq_nat] at enough
    exact Agenda.runsUntil_eq_zero_iff.1 (enough _ (List.mem_map_of_mem mem))
  | succ fuel ih =>
    unfold drain
    split
    · assumption
    · have fewer := calm.dueRuns_runEntry_lt ‹_›
      exact ih (by omega)

end Calm

end Host

end SealedStream
