import SealedStream.Proofs.Rollover.Sources

/-!
# Rollovers as they are reckoned

The secrets of a rollover are gone through up to the first one that is early. Those before it are created,
and so their times can be reckoned. If its own times can be, it makes the rollover fail, and otherwise the
program stops at it. If no secret is early, the rollover is what it should be.

## Main definitions

* `Rollover.Early` — a secret is not yet created.
* `Rollover.FirstEarly` — the secret at which a rollover ends.

## Main statements

* `Rollover.plan?_of_firstEarly` — the rollover fails at the first early secret, or the program stops.
* `Rollover.plan?_of_timely` — without an early secret, the rollover is reckoned as it should be.
-/

namespace SealedStream.Rollover

open Std

section Early

variable (now : Nat) (latencies : ExtTreeMap Transport Nat) (tolerance : Nat)

/-- The clock stands before the creation of a secret. -/
def Early (s : PeriodSecret) : Prop :=
  ∃ span, lifespan? latencies tolerance s = some span ∧ (now : Int) < span.creation

/-- The first early secret of a list, and the latency of its transport. -/
structure FirstEarly (secrets : List PeriodSecret) (s : PeriodSecret) (latency : Nat) : Prop where
  first : ∃ front rest, secrets = front ++ s :: rest ∧ ∀ x ∈ front, ¬ Early now latencies tolerance x
  known : latencies[s.pair.transport]? = some latency
  early : (now : Int) <
    (Schedule.lifespan s.link.epoch (Schedule.interval latency tolerance) s.period).creation

end Early

variable {suite : Suite} {now : Nat} {latencies : ExtTreeMap Transport Nat} {tolerance latency : Nat}
  {secrets : List PeriodSecret} {s : PeriodSecret} {r : Rollover}

theorem early_iff : Early now latencies tolerance s ↔
    ∃ latency, latencies[s.pair.transport]? = some latency ∧ (now : Int) <
      (Schedule.lifespan s.link.epoch (Schedule.interval latency tolerance) s.period).creation := by
  simp only [Early, lifespan?, Option.map_eq_some_iff]
  constructor
  · rintro ⟨_, ⟨latency, known, rfl⟩, early⟩
    exact ⟨latency, known, early⟩
  · rintro ⟨latency, known, early⟩
    exact ⟨_, ⟨latency, known, rfl⟩, early⟩

theorem stage?_eq_notYetCreated_iff_early :
    stage? now latencies tolerance s = some .notYetCreated ↔ Early now latencies tolerance s := by
  simp only [stage?, lifespan?, Option.map_map, Option.map_eq_some_iff, early_iff]
  exact exists_congr fun _ => and_congr_right fun _ => Schedule.stageAt_eq_notYetCreated_iff_lt

instance : Decidable (Early now latencies tolerance s) :=
  decidable_of_iff _ stage?_eq_notYetCreated_iff_early

theorem premature?_eq_none_iff_not_early :
    premature? now latencies tolerance s = none ↔ ¬ Early now latencies tolerance s := by
  rw [premature?_eq_none_iff, Ne, stage?_eq_notYetCreated_iff_early]

theorem interval_le_top : Schedule.interval latency tolerance ≤ Count.top := Count.plus_le_top ..

/-! ## One secret -/

/-- If the times of a secret can be reckoned, the rollover ends at it if it is early. Otherwise the program
stops. -/
theorem halt?_of_known (known : latencies[s.pair.transport]? = some latency) :
    halt? now latencies tolerance s =
      let interval := Schedule.interval latency tolerance
      let creation := (Schedule.lifespan s.link.epoch interval s.period).creation
      if Schedule.Fits s.link.epoch interval s.period then
        if (now : Int) < creation then some (some (.clockBehind s.id now creation)) else none
      else some none := by
  simp only [halt?, show latencies[s.link.transport]? = some latency from known, Option.bind_eq_bind,
    Option.bind_some]
  by_cases fits : Schedule.Fits s.link.epoch (Schedule.interval latency tolerance) s.period
  · simp only [Schedule.lifespanOn_eq_some interval_le_top fits, if_pos fits,
      Schedule.stageAt_eq_notYetCreated_iff_lt]
  · simp only [Schedule.lifespanOn_stops_eq_none fits, if_neg fits]

/-- No secret that is created ends a rollover. -/
theorem halt?_eq_none_iff (reads : now ≤ Count.top) :
    halt? now latencies tolerance s = none ↔ ¬ Early now latencies tolerance s := by
  rw [early_iff]
  cases known : latencies[s.pair.transport]? with
  | none =>
    simp [halt?, show latencies[s.link.transport]? = none from known]
  | some latency =>
    rw [halt?_of_known known]
    by_cases fits : Schedule.Fits s.link.epoch (Schedule.interval latency tolerance) s.period
    · simp [fits]
    · have early : (now : Int) <
          (Schedule.lifespan s.link.epoch (Schedule.interval latency tolerance) s.period).creation := by
        rw [← Schedule.stageAt_eq_notYetCreated_iff_lt]
        by_contra created
        exact fits (Schedule.fits_of_created interval_le_top reads created)
      simpa [fits] using early

/-! ## The whole list -/

/-- If some secret is early, one of them is the first. -/
theorem exists_firstEarly (early : ∃ s ∈ secrets, Early now latencies tolerance s) :
    ∃ s latency, FirstEarly now latencies tolerance secrets s latency := by
  induction secrets with
  | nil => simp at early
  | cons x secrets ih =>
    by_cases at_once : Early now latencies tolerance x
    · obtain ⟨latency, known, lt⟩ := early_iff.1 at_once
      exact ⟨x, latency, ⟨[], secrets, rfl, nofun⟩, known, lt⟩
    · obtain ⟨s, latency, ⟨front, rest, rfl, timely⟩, known, lt⟩ := ih (by simpa [at_once] using early)
      exact ⟨s, latency, ⟨x :: front, rest, rfl, List.forall_mem_cons.2 ⟨at_once, timely⟩⟩, known, lt⟩

/-- A rollover fails at the first early secret, or the program stops there. -/
theorem plan?_of_firstEarly (reads : now ≤ Count.top)
    (leads : FirstEarly now latencies tolerance secrets s latency) :
    plan? suite now latencies tolerance secrets =
      let interval := Schedule.interval latency tolerance
      let creation := (Schedule.lifespan s.link.epoch interval s.period).creation
      if Schedule.Fits s.link.epoch interval s.period then some (.error (.clockBehind s.id now creation))
      else none := by
  obtain ⟨⟨front, rest, rfl, timely⟩, known, early⟩ := leads
  have passed : front.findSome? (halt? now latencies tolerance) = none :=
    List.findSome?_eq_none_iff.2 fun x mem => (halt?_eq_none_iff reads).2 (timely x mem)
  have ends : halt? now latencies tolerance s = _ := halt?_of_known known
  simp only [early, if_true] at ends
  simp only [plan?, List.findSome?_append, passed, Option.none_or, List.findSome?_cons, ends]
  by_cases fits : Schedule.Fits s.link.epoch (Schedule.interval latency tolerance) s.period
  · simp only [fits, if_true]
    rfl
  · simp only [fits, if_false]

/-- The program does not stop at the current periods of the pairs if they can be counted. -/
theorem overfills_eq_false {pair : Pair} {trio : Trio}
    (room : ∀ s ∈ secrets, ∀ current, current? now latencies tolerance s.link = some current →
      current ≤ Count.top)
    (there : (trios (deadOf now latencies tolerance secrets)
      (liveTrios (stage? now latencies tolerance) secrets))[pair]? = some trio)
    (known : latencies[pair.transport]? = some latency) :
    overfills now (Schedule.interval latency tolerance)
      ((deadOf now latencies tolerance secrets).filter (·.pair = pair)) trio = false := by
  have given : ∀ first ∈ trio.secrets ++ (deadOf now latencies tolerance secrets).filter (·.pair = pair),
      first ∈ secrets ∧ first.pair = pair := by
    intro first mem
    rcases List.mem_append.1 mem with live | dead
    · obtain ⟨turn, stands⟩ := Trio.mem_secrets.1 live
      have is : trio = liveTrio now latencies tolerance secrets pair := by
        rw [getElem?_trios] at there
        unfold liveTrio
        cases found : (liveTrios (stage? now latencies tolerance) secrets)[pair]? with
        | none =>
          rw [found, Option.none_or] at there
          split at there <;> cases there
          rfl
        | some trio' =>
          rw [found, Option.some_or] at there
          exact (Option.some.inj there).symm
      obtain ⟨mem, own, -⟩ := of_get_liveTrio (is ▸ stands)
      exact ⟨mem, own⟩
    · obtain ⟨mem, own⟩ := List.mem_filter.1 dead
      exact ⟨(List.mem_filter.1 mem).1, by simpa using own⟩
  simp only [overfills, decide_eq_false_iff_not, not_and]
  intro _ some_stops
  obtain ⟨first, found, stops⟩ := (Option.any_eq_true ..).1 some_stops
  obtain ⟨mem, rfl⟩ := given first (List.mem_of_mem_head? found)
  have counts := room first mem
  unfold current? at counts
  rw [show latencies[first.link.transport]? = some latency from known, Option.bind_some] at counts
  rw [decide_eq_true_eq, Schedule.periodOn] at stops
  cases at_now : Schedule.periodAt first.link.epoch (Schedule.interval latency tolerance) now with
  | none => simp [at_now] at stops
  | some current => simp [at_now, Overflow.count_eq_some (counts current at_now)] at stops

/-- A rollover without an early secret is reckoned as it should be. -/
theorem plan?_of_timely (reads : now ≤ Count.top)
    (timely : ∀ s ∈ secrets, ¬ Early now latencies tolerance s)
    (room : ∀ s ∈ secrets, ∀ current, current? now latencies tolerance s.link = some current →
      current ≤ Count.top) :
    plan? suite now latencies tolerance secrets = some (plan suite now latencies tolerance secrets) := by
  have passed : secrets.findSome? (halt? now latencies tolerance) = none :=
    List.findSome?_eq_none_iff.2 fun x mem => (halt?_eq_none_iff reads).2 (timely x mem)
  simp only [plan?, passed]
  rw [if_neg]
  intro stops
  obtain ⟨⟨pair, trio⟩, mem, stops⟩ := List.any_eq_true.1 stops
  obtain ⟨latency, known, stops⟩ := (Option.any_eq_true ..).1 stops
  have there := ExtTreeMap.mem_toList_iff_getElem?_eq_some.1 mem
  exact absurd (stops.symm.trans (overfills_eq_false room there known)) nofun

end SealedStream.Rollover
