import SealedStream.Proofs.Bare
import SealedStream.Proofs.Rollover.Reckoning
import SealedStream.Proofs.Rollover.Yields

/-!
# What a rollover supplies

A rollover fails if some secret is not yet created, unless the times of the first such secret cannot be
reckoned. Otherwise it retires what is dead or has lost its transport, and of every other pair it fills
each place that some secret of the pair comes before, with the given secret if there is one.

## Main definitions

* `Rollover.Supplied`, `Rollover.Supplies` — what stands in a place, and what becomes of all secrets.

## Main statements

* `Rollover.nodup_created` — nothing is derived twice.
* `Rollover.plan_supplies` — a rollover fails or stops if it must, and supplies what can be supplied.
-/

namespace SealedStream.Rollover

open Std

variable {suite : Suite} {now : Nat} {latencies : ExtTreeMap Transport Nat} {tolerance : Nat}
  {secrets : List PeriodSecret} {s : PeriodSecret} {r : Rollover}

theorem exists_plan (timely : ∀ s ∈ secrets, ¬ Early now latencies tolerance s) :
    ∃ r, plan suite now latencies tolerance secrets = .ok r := by
  have none : secrets.findSome? (premature? now latencies tolerance) = none :=
    List.findSome?_eq_none_iff.2 fun s mem => premature?_eq_none_iff_not_early.2 (timely s mem)
  simp only [plan, planBy, none]
  exact ⟨_, rfl⟩

/-! ## What is derived -/

theorem pairwise_deriveMissing {link : Link} {current : Nat} {sources : List PeriodSecret}
    {turns : List Turn} (apart : turns.Nodup) :
    (deriveMissing suite link current sources turns).Pairwise (·.period ≠ ·.period) := by
  induction turns using List.reverseRecOn with
  | nil => exact .nil
  | append_singleton turns turn ih =>
    obtain ⟨within, -, new⟩ := List.nodup_append.1 apart
    rw [deriveMissing_append_singleton, List.pairwise_append]
    refine ⟨ih within, by cases (turn.period current).bind _ <;> simp, ?_⟩
    intro x mem y mem' same
    -- What was derived before was derived for another place.
    obtain ⟨-, turn', mem, target⟩ := of_mem_deriveMissing mem
    obtain ⟨period, target', derived⟩ := Option.bind_eq_some_iff.1 (Option.mem_toList.1 mem')
    obtain ⟨source, -, -, rfl⟩ := of_derive? derived
    have place := Turn.eq_add_offset_of_period target
    have place' := Turn.eq_add_offset_of_period target'
    replace same : x.period = period := same
    exact new turn' mem turn (by simp) (Turn.offset_injective (by omega))

/-- Whatever the secrets are, nothing is derived twice. -/
theorem nodup_created (plans : plan suite now latencies tolerance secrets = .ok r) :
    (r.created.map (·.id)).Nodup := by
  obtain ⟨timely, rfl⟩ := plan_eq_ok plans
  -- What is derived for a pair is its own.
  have own {pair : Pair} {f : Trio × List PeriodSecret}
      (there : (filled suite now latencies tolerance secrets)[pair]? = some f) :
      f.2.Pairwise (·.period ≠ ·.period) ∧ ∀ x ∈ f.2, x.pair = pair := by
    obtain ⟨latency, -, -, rfl⟩ := (filled_eq_some_iff timely).1 there
    rcases filling_cases suite now latencies tolerance secrets pair latency with
      none | ⟨first, -, rfl, current, -, derived⟩
    · rw [none]
      exact ⟨.nil, by simp⟩
    · rw [derived]
      exact ⟨pairwise_deriveMissing (List.Pairwise.filter _ (by decide)), fun x mem =>
        congrArg (·.link.toPair) (of_mem_deriveMissing mem).1⟩
  rw [List.Nodup, List.pairwise_map, List.pairwise_flatMap]
  constructor
  · intro f mem
    obtain ⟨pair, there⟩ := mem_values.1 mem
    exact (own there).1.imp fun differ same => differ (PeriodSecret.id_eq_iff.1 same).2
  · rw [values_eq_map_toList, List.pairwise_map]
    refine (ExtTreeMap.distinct_keys_toList).imp_of_mem fun mem mem' differ x hx y hy same => ?_
    have at_x := (own (ExtTreeMap.mem_toList_iff_getElem?_eq_some.1 mem)).2 x hx
    have at_y := (own (ExtTreeMap.mem_toList_iff_getElem?_eq_some.1 mem')).2 y hy
    apply differ
    rw [← at_x, ← at_y, (PeriodSecret.id_eq_iff.1 same).1]
    exact ReflCmp.compare_self

/-! ## What stands in the places -/

/-- What stands in the place of a period of a pair: the given secret of the period, or else one that
is derived from the latest before it. The place is empty if no secret of the pair comes so early. -/
structure Supplied (suite : Suite) (secrets : List PeriodSecret) (pair : Pair) (period : Int)
    (slot : Option PeriodSecret) : Prop where
  isSome_iff : slot.isSome ↔ ∃ s ∈ secrets, s.pair = pair ∧ (s.period : Int) ≤ period
  of_given : ∀ s ∈ secrets, s.pair = pair → (s.period : Int) = period → slot = some s
  of_missing : (∀ s ∈ secrets, s.pair = pair → (s.period : Int) ≠ period) →
    ∀ target : Nat, (target : Int) = period → ∀ source, LatestBefore secrets pair target source →
      slot = some (.fresh source.link target (suite.walk source.period target source.key))

/-- What becomes of secrets of which none is early. -/
structure Supplies (suite : Suite) (now : Nat) (latencies : ExtTreeMap Transport Nat)
    (tolerance : Nat) (secrets : List PeriodSecret) (r : Rollover) : Prop where
  orphaned : r.orphaned = secrets.filter (latencies[·.pair.transport]? = none)
  mem_dead : ∀ s, s ∈ r.dead ↔ s ∈ secrets ∧
    ∃ current, current? now latencies tolerance s.link = some current ∧ s.period + 2 ≤ current
  mem_held : ∀ pair, pair ∈ r.held ↔
    latencies[pair.transport]? ≠ none ∧ ∃ s ∈ secrets, s.pair = pair
  supplied : ∀ s ∈ secrets, latencies[s.pair.transport]? ≠ none →
    ∃ current, current? now latencies tolerance s.link = some current ∧ ∀ turn : Turn,
      Supplied suite secrets s.pair (current + turn.offset) ((r.held[s.pair]?).bind (·.get turn))
  /-- Derived are the secrets that are held and were not given. -/
  mem_created : ∀ x, x ∈ r.created ↔
    x ∈ r.held.values.flatMap Trio.secrets ∧ ∀ s ∈ secrets, s.id ≠ x.id
  nodup_created : (r.created.map (·.id)).Nodup

section Supplies

variable (uniform : Uniform secrets) (bounded : Bounded now latencies tolerance secrets)
  (plans : plan suite now latencies tolerance secrets = .ok r)
include uniform bounded plans

theorem supplied_of_mem {current : Nat} (mem : s ∈ secrets)
    (at_now : current? now latencies tolerance s.link = some current) (turn : Turn) :
    Supplied suite secrets s.pair (current + turn.offset)
      ((r.held[s.pair]?).bind (·.get turn)) := by
  have stands {x : PeriodSecret} (own : x.pair = s.pair) (yields : Yields suite secrets x)
      (place : (x.period : Int) = current + turn.offset) :
      (r.held[s.pair]?).bind (·.get turn) = some x :=
    (uniform.get_held_iff bounded plans mem at_now).2 ⟨own, yields, place⟩
  refine ⟨⟨?_, ?_⟩, fun t given own place => stands own (.given given) place, ?_⟩
  · intro some
    obtain ⟨x, there⟩ := Option.isSome_iff_exists.1 some
    obtain ⟨own, yields, place⟩ := (uniform.get_held_iff bounded plans mem at_now).1 there
    obtain ⟨t, given, own', -, le⟩ := yields.exists_le
    exact ⟨t, given, own'.trans own, by omega⟩
  · rintro ⟨t, given, own, le⟩
    obtain ⟨x, yields, link, period⟩ := Yields.exists_of_le suite uniform given
      (show t.period ≤ (current + turn.offset).toNat by omega)
    rw [stands ((congrArg Link.toPair link).trans own) yields (by omega), Option.isSome_some]
  · intro missing target place source before
    refine stands before.pair_eq (.derived (fun t given same => ?_) source ?_ rfl) place
    · obtain ⟨own, period⟩ := PeriodSecret.id_eq_iff.1 same
      exact missing t given (own.trans before.pair_eq) (period ▸ place)
    · exact (show _ = s.pair from before.pair_eq).symm ▸ before

end Supplies

/-! ## What becomes of all secrets -/

section Started

variable (pos : ∀ s ∈ secrets, ∀ latency, latencies[s.pair.transport]? = some latency →
    0 < Schedule.interval latency tolerance)
  (after : ∀ s ∈ secrets, s.link.epoch ≤ now)
include pos after

theorem exists_current (mem : s ∈ secrets) (known : latencies[s.pair.transport]? ≠ none) :
    ∃ current, current? now latencies tolerance s.link = some current := by
  obtain ⟨latency, known⟩ := Option.ne_none_iff_exists'.1 known
  have pos := pos s mem latency known
  obtain ⟨current, at_now, -⟩ := Schedule.exists_periodAt pos
    ((Schedule.cycle_pos_iff pos).2 (after s mem))
  exact ⟨current, by rw [current?, show latencies[s.link.transport]? = _ from known]; exact at_now⟩

theorem mem_deadOf_iff : s ∈ deadOf now latencies tolerance secrets ↔ s ∈ secrets ∧
    ∃ current, current? now latencies tolerance s.link = some current ∧ s.period + 2 ≤ current := by
  simp only [deadOf, List.mem_filter, decide_eq_true_eq]
  refine and_congr_right fun mem => ⟨fun dead => ?_, ?_⟩
  · have known : latencies[s.pair.transport]? ≠ none := fun unknown => by
      rw [stage?_eq_none_iff.2 unknown] at dead
      cases dead
    obtain ⟨current, at_now⟩ := exists_current pos after mem known
    exact ⟨current, at_now, (stage?_eq_dead_iff at_now).1 dead⟩
  · rintro ⟨current, at_now, le⟩
    exact (stage?_eq_dead_iff at_now).2 le

/-- Every pair with a secret and a latency is held. -/
theorem pair_mem_held_iff (uniform : Uniform secrets)
    (bounded : Bounded now latencies tolerance secrets)
    (plans : plan suite now latencies tolerance secrets = .ok r) {pair : Pair} :
    pair ∈ r.held ↔ latencies[pair.transport]? ≠ none ∧ ∃ s ∈ secrets, s.pair = pair := by
  constructor
  · intro held
    obtain ⟨trio, there⟩ := Option.isSome_iff_exists.1 (ExtTreeMap.mem_iff_isSome_getElem?.1 held)
    obtain ⟨turn, x, stands⟩ := exists_get_of_held plans there
    obtain ⟨rfl, -, live⟩ := (uniform.get_held plans).1 stands
    refine ⟨fun unknown => ?_, (pair_of_held plans there).1⟩
    rw [stage?_eq_none_iff.2 unknown] at live
    cases live
  · rintro ⟨known, s, mem, rfl⟩
    obtain ⟨current, at_now⟩ := exists_current pos after mem known
    -- A secret that is not early has the new period at the latest.
    have le : s.period ≤ current + 1 := by
      by_contra late
      exact (plan_eq_ok plans).1 s mem ((stage?_eq_notYetCreated_iff at_now).2 (by omega))
    have supplied := supplied_of_mem uniform bounded plans mem at_now .new
    have some := supplied.isSome_iff.2 ⟨s, mem, rfl, by simp only [Turn.offset]; omega⟩
    obtain ⟨x, stands⟩ := Option.isSome_iff_exists.1 some
    obtain ⟨trio, there, -⟩ := Option.bind_eq_some_iff.1 stands
    exact ExtTreeMap.mem_iff_isSome_getElem?.2 (by rw [there]; rfl)

end Started

/-- If some secret is early, the rollover blames the first one that is, as long as its times can be
reckoned, which those of created secrets always can (`Schedule.fits_of_created`); otherwise the program
stops. If none is early, the rollover succeeds, and fills every place that can be filled. -/
theorem plan_supplies (reads : now ≤ Count.top) (uniform : Uniform secrets)
    (pos : ∀ s ∈ secrets, ∀ latency, latencies[s.pair.transport]? = some latency →
      0 < Schedule.interval latency tolerance)
    (after : ∀ s ∈ secrets, s.link.epoch ≤ now) (bounded : Bounded now latencies tolerance secrets) :
    ((∃ s ∈ secrets, Early now latencies tolerance s) →
      ∃ s latency, FirstEarly now latencies tolerance secrets s latency ∧
        let interval := Schedule.interval latency tolerance
        let creation := (Schedule.lifespan s.link.epoch interval s.period).creation
        (Schedule.Fits s.link.epoch interval s.period →
          plan? suite now latencies tolerance secrets = some (.error (.clockBehind s.id now creation))) ∧
        (¬ Schedule.Fits s.link.epoch interval s.period →
          plan? suite now latencies tolerance secrets = none)) ∧
    ((∀ s ∈ secrets, ¬ Early now latencies tolerance s) →
      ∃ r, plan? suite now latencies tolerance secrets = some (.ok r) ∧
        Supplies suite now latencies tolerance secrets r) := by
  refine ⟨fun early => ?_, fun timely => ?_⟩
  · obtain ⟨s, latency, leads⟩ := exists_firstEarly early
    have ends : plan? suite now latencies tolerance secrets = _ := plan?_of_firstEarly reads leads
    refine ⟨s, latency, leads, fun fits => ?_, fun late => ?_⟩
    · rw [ends]
      exact if_pos fits
    · rw [ends]
      exact if_neg late
  obtain ⟨r, plans⟩ : ∃ r, plan suite now latencies tolerance secrets = .ok r := exists_plan timely
  have reckoned : plan? suite now latencies tolerance secrets = some (.ok r) := by
    rw [← plans]
    exact plan?_of_timely reads timely fun s mem current at_now => (bounded s mem current at_now).le
  refine ⟨r, reckoned, ?_, fun s => ?_, fun pair => pair_mem_held_iff pos after uniform bounded plans,
    ?_, fun x => ?_, nodup_created plans⟩
  · obtain ⟨-, rfl⟩ := plan_eq_ok plans
    simp [stage?_eq_none_iff]
  · obtain ⟨-, rfl⟩ := plan_eq_ok plans
    exact mem_deadOf_iff pos after
  · intro s mem known
    obtain ⟨current, at_now⟩ := exists_current pos after mem known
    exact ⟨current, at_now, supplied_of_mem uniform bounded plans mem at_now⟩
  · rw [uniform.mem_held plans]
    constructor
    · intro created
      have due := (uniform.mem_created plans bounded).1 created
      exact ⟨⟨.inr created, due.live⟩, due.missing⟩
    · rintro ⟨⟨given | created, -⟩, missing⟩
      · exact absurd rfl (missing x given)
      · exact created

/-- Two pairs are listed in turns, together with a secret whose transport is gone. At 35, the places on
both sides of the first pair's live secret are filled, and those before the second pair's are not. At
5, the second pair's secret is early. -/
theorem plan_supplies_in_turns :
    let a : Link := ⟨⟨1, "tcp"⟩, 0, .alice⟩
    let b : Link := ⟨⟨2, "tcp"⟩, 0, .bob⟩
    let gone : Link := ⟨⟨1, "bluetooth"⟩, 0, .alice⟩
    let secrets : List PeriodSecret :=
      [.fresh a 1 .wiped, .fresh b 5 .wiped, .fresh gone 9 .wiped, .fresh a 4 .wiped]
    let latencies : ExtTreeMap Transport Nat := (∅ : ExtTreeMap Transport Nat).insert "tcp" 7
    (∃ r, plan? bare 35 latencies 3 secrets = some (.ok r) ∧ Supplies bare 35 latencies 3 secrets r ∧
      r.created.map (·.id) = [⟨⟨1, "tcp"⟩, 3⟩, ⟨⟨1, "tcp"⟩, 5⟩]) ∧
    ∃ latency, FirstEarly 5 latencies 3 secrets (.fresh b 5 .wiped) latency ∧
      plan? bare 5 latencies 3 secrets = some (.error (.clockBehind ⟨⟨2, "tcp"⟩, 5⟩ 5 30)) := by
  intro a b gone secrets latencies
  have uniform : Uniform secrets := ⟨by decide, by decide⟩
  have pos (s : PeriodSecret) (_ : s ∈ secrets) (latency : Nat)
      (_ : latencies[s.pair.transport]? = some latency) : 0 < Schedule.interval latency 3 := by
    simp only [Schedule.interval, Count.plus, Count.wrap, Count.top]
    omega
  have after (now : Nat) (s : PeriodSecret) (mem : s ∈ secrets) : s.link.epoch ≤ now := by
    have started : ∀ s ∈ secrets, s.link.epoch = 0 := by decide
    exact started s mem ▸ Nat.zero_le now
  constructor
  · obtain ⟨r, plans, supplies⟩ := (plan_supplies (by decide) uniform pos (after 35)
      (bounded_of_lt (by decide))).2 (by decide +kernel)
    have created : ((plan? bare 35 latencies 3 secrets).bind (·.toOption)).map
        (·.created.map (·.id)) = some [⟨⟨1, "tcp"⟩, 3⟩, ⟨⟨1, "tcp"⟩, 5⟩] := by decide +kernel
    rw [plans] at created
    exact ⟨r, plans, supplies, Option.some.inj created⟩
  · obtain ⟨s, latency, leads, fails, -⟩ := (@plan_supplies bare 5 latencies 3 secrets (by decide)
      uniform pos (after 5) (bounded_of_lt (by decide))).1 ⟨.fresh b 5 .wiped, by decide, by decide +kernel⟩
    obtain ⟨front, rest, eq, timely⟩ := leads.first
    have early : ¬ Early 5 latencies 3 (.fresh a 1 .wiped) ∧ Early 5 latencies 3 (.fresh b 5 .wiped) := by
      decide +kernel
    obtain rfl : s = .fresh b 5 .wiped := by
      rcases front with _ | ⟨x, _ | ⟨y, front⟩⟩
      · exact absurd (early_iff.2 ⟨latency, leads.known, leads.early⟩) ((List.cons.inj eq).1 ▸ early.1)
      · exact (List.cons.inj (List.cons.inj eq).2).1.symm
      · refine absurd early.2 (timely _ ?_)
        rw [(List.cons.inj (List.cons.inj eq).2).1]
        simp
    have seven : latencies[(PeriodSecret.fresh b 5 .wiped).pair.transport]? = some 7 := by decide +kernel
    obtain rfl := Option.some.inj (leads.known.symm.trans seven)
    exact ⟨7, leads, fails (by decide)⟩

/-- The greatest period of the longest interval is early, but the program stops instead of blaming it. -/
theorem not_plan_supplies :
    let s : PeriodSecret := .fresh ⟨⟨1, "tcp"⟩, 0, .alice⟩ (Count.top - 1) .wiped
    let latencies : ExtTreeMap Transport Nat := (∅ : ExtTreeMap Transport Nat).insert "tcp" Count.top
    Early 0 latencies 0 s ∧ Uniform [s] ∧ Bounded 0 latencies 0 [s] ∧
      plan? bare 0 latencies 0 [s] = none := by
  exact ⟨by decide +kernel, ⟨by decide, by decide⟩, bounded_of_lt (by decide), by decide +kernel⟩

end SealedStream.Rollover
