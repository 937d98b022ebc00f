import SealedStream.Proofs.Rollover.Plan

/-!
# The periods of a pair in a rollover

Of what a rollover does to the secrets of one pair, only the periods matter: the three around the
current one are derived as far as they are missing, and those before them are retired.

## Main definitions

* `Rollover.Near` — the periods that are live.
* `Rollover.Derives` — the periods that are derived for a pair.

## Main statements

* `Rollover.Planned.created_iff`, `Rollover.Planned.retired_iff` — what a rollover does to the
  periods of a pair.
* `Rollover.Planned.periods_held` — a pair with a secret before the current one gets all three.
-/

namespace SealedStream.Rollover

open Std

/-- Some of the secrets is that of a period of a pair. -/
def HasPeriod (secrets : List PeriodSecret) (pair : Pair) (period : Nat) : Prop :=
  ∃ s ∈ secrets, s.id = ⟨pair, period⟩

/-- The period is one of the three around the current one. -/
def Near (current period : Nat) : Prop :=
  period + 1 = current ∨ period = current ∨ period = current + 1

/-- The live periods are those of the three places. -/
theorem near_iff_exists_offset {current period : Nat} :
    Near current period ↔ ∃ turn : Turn, (period : Int) = current + turn.offset := by
  unfold Near
  constructor
  · intro near
    obtain ⟨turn, offset⟩ := Turn.exists_offset (show -1 ≤ (period : Int) - current by omega)
      (by omega)
    exact ⟨turn, by omega⟩
  · rintro ⟨turn, place⟩
    have offset := turn.offset_near
    omega

/-- The period is one of the three around the current one, is missing, and comes after one that is
there. -/
structure Derives (there : Nat → Prop) (current period : Nat) : Prop where
  near : Near current period
  missing : ¬ there period
  source : ∃ earlier < period, there earlier

namespace Planned

variable {suite : Suite} {origin : Pair → Origin} {now : Nat} {latencies : ExtTreeMap Transport Nat}
  {tolerance : Nat} {secrets : List PeriodSecret} {r : Rollover} {pair : Pair} {latency : Nat}
  (planned : Planned suite origin now latencies tolerance secrets r)
  (known : latencies[pair.transport]? = some latency)
include planned

theorem hasPeriod_of_created {period : Nat} (mem : HasPeriod r.created pair period) :
    ∃ earlier < period, HasPeriod secrets pair earlier := by
  obtain ⟨x, mem, named⟩ := mem
  obtain ⟨-, -, ⟨s, source, own, lt⟩, -⟩ := (planned.mem_created x).1 mem
  obtain ⟨own', rfl⟩ := PeriodId.mk.inj named
  exact ⟨s.period, lt, s, source, by rw [← show x.pair = pair from own', ← own]; rfl⟩

theorem hasPeriod_of_retired {period : Nat} (mem : (⟨pair, period⟩ : PeriodId) ∈ r.retired) :
    HasPeriod secrets pair period := by
  simp only [retired, List.mem_map, List.mem_append, planned.mem_dead, planned.mem_orphaned] at mem
  obtain ⟨s, ⟨mem, -⟩ | ⟨mem, -⟩, named⟩ := mem
  · exact ⟨s, mem, named⟩
  · exact ⟨s, mem, named⟩

theorem hasPeriod_of_held {trio : Trio} (there : r.held[pair]? = some trio) :
    ∃ period, HasPeriod secrets pair period := by
  have occupied := planned.held_ne_vacant pair trio there
  simp only [Trio.vacant_iff, not_forall] at occupied
  obtain ⟨turn, occupied⟩ := occupied
  obtain ⟨s, stands⟩ := Option.ne_none_iff_exists'.1 occupied
  obtain ⟨rfl, mem | mem, -⟩ := (planned.get_held pair turn s).1 (by rw [there]; exact stands)
  · exact ⟨s.period, s, mem, rfl⟩
  · obtain ⟨earlier, -, source⟩ := planned.hasPeriod_of_created ⟨s, mem, rfl⟩
    exact ⟨earlier, source⟩

include known

theorem timely_of_known (period : Nat) (mem : HasPeriod secrets pair period) :
    (period : Int) ≤
      Schedule.cycle (origin pair).epoch (Schedule.interval latency tolerance) now + 1 := by
  obtain ⟨s, mem, named⟩ := mem
  obtain ⟨own, rfl⟩ := PeriodId.mk.inj named
  refine planned.timely s mem _ ?_
  rw [show s.pair = pair from own, cycle?, known]
  rfl

variable {current : Nat} (room : current < Count.top)
  (at_now : Schedule.periodAt (origin pair).epoch (Schedule.interval latency tolerance) now =
    some current)
include at_now room

theorem created_iff {period : Nat} :
    HasPeriod r.created pair period ↔ Derives (HasPeriod secrets pair) current period := by
  constructor
  · rintro ⟨x, mem, named⟩
    obtain ⟨eq, ⟨latency', current', turn, known', at_now', target⟩, ⟨s, source, own, lt⟩, missing⟩ :=
      (planned.mem_created x).1 mem
    obtain ⟨own', rfl⟩ := PeriodId.mk.inj named
    obtain rfl : x.pair = pair := own'
    rw [known] at known'
    cases known'
    rw [at_now] at at_now'
    cases at_now'
    refine ⟨?_, ?_, s.period, lt, s, source, by rw [← own]; rfl⟩
    · exact near_iff_exists_offset.2 ⟨turn, Turn.eq_add_offset_of_period target⟩
    · rintro ⟨t, there, same⟩
      exact missing t there same
  · rintro ⟨near, missing, earlier, lt, s, source, named⟩
    obtain ⟨own, rfl⟩ := PeriodId.mk.inj named
    obtain ⟨turn, place⟩ := near_iff_exists_offset.1 near
    have target := (Turn.period_eq_some_iff room).2 place
    refine ⟨.ofChain suite origin pair period, (planned.mem_created _).2 ⟨rfl, ?_, ?_, ?_⟩, rfl⟩
    · exact ⟨latency, current, turn, known, at_now, target⟩
    · exact ⟨s, source, own, lt⟩
    · exact fun t there same => missing ⟨t, there, same⟩

omit room in
theorem retired_iff (pos : 0 < Schedule.interval latency tolerance) {period : Nat} :
    (⟨pair, period⟩ : PeriodId) ∈ r.retired ↔
      HasPeriod secrets pair period ∧ period + 2 ≤ current := by
  obtain ⟨-, cycle⟩ := (Schedule.periodAt_eq_some_iff pos).1 at_now
  simp only [retired, List.mem_map, List.mem_append, planned.mem_dead, planned.mem_orphaned]
  constructor
  · rintro ⟨s, ⟨mem, c, hc, dead⟩ | ⟨mem, orphaned⟩, named⟩
    · obtain ⟨own, rfl⟩ := PeriodId.mk.inj named
      rw [show s.pair = pair from own, cycle?, known, Option.map_some, Option.some.injEq] at hc
      exact ⟨⟨s, mem, named⟩, by omega⟩
    · obtain ⟨own, rfl⟩ := PeriodId.mk.inj named
      rw [show s.pair = pair from own, known] at orphaned
      cases orphaned
  · rintro ⟨⟨s, mem, named⟩, dead⟩
    obtain ⟨own, rfl⟩ := PeriodId.mk.inj named
    refine ⟨s, .inl ⟨mem, current, ?_, by omega⟩, named⟩
    rw [show s.pair = pair from own, cycle?, known, Option.map_some, cycle]

/-- A pair with a secret before the current one gets all three secrets around it. -/
theorem periods_held (pos : 0 < Schedule.interval latency tolerance) {source : Nat}
    (lt : source < current) (mem : HasPeriod secrets pair source) :
    (r.held[pair]?).map Trio.periods =
      some [some (current - 1), some current, some (current + 1)] := by
  obtain ⟨-, cycle⟩ := (Schedule.periodAt_eq_some_iff pos).1 at_now
  have stands (turn : Turn) (period : Nat) (place : (period : Int) = current + turn.offset) :
      ((r.held[pair]?).bind (·.get turn)).map PeriodSecret.period = some period := by
    have there : ∃ x, (x ∈ secrets ∨ x ∈ r.created) ∧ x.id = ⟨pair, period⟩ := by
      by_cases missing : HasPeriod secrets pair period
      · obtain ⟨x, mem, named⟩ := missing
        exact ⟨x, .inl mem, named⟩
      · have ne : source ≠ period := fun eq => missing (eq ▸ mem)
        have near : Near current period := near_iff_exists_offset.2 ⟨turn, place⟩
        obtain ⟨x, mem, named⟩ := (planned.created_iff known room at_now).2
          ⟨near, missing, source, by unfold Near at near; omega, mem⟩
        exact ⟨x, .inr mem, named⟩
    obtain ⟨x, mem, named⟩ := there
    obtain ⟨own, rfl⟩ := PeriodId.mk.inj named
    rw [(planned.get_held pair turn x).2 ⟨own, mem, current, by simp [cycle?, known, cycle], place⟩]
    rfl
  have old := stands .old (current - 1) (by simp only [Turn.offset]; omega)
  have mid := stands .current current (by simp only [Turn.offset]; omega)
  have new := stands .new (current + 1) (by simp only [Turn.offset]; omega)
  cases held : r.held[pair]? with
  | none => simp [held] at mid
  | some trio =>
    simp only [held, Option.bind_some] at old mid new
    simp only [Option.map_some, Trio.periods, Turn.all, List.map_cons, List.map_nil, old, mid, new]

end Planned

end SealedStream.Rollover
