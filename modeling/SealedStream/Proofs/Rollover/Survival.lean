import SealedStream.Proofs.Rollover.Losses

/-!
# Pairs that survive a rollover

If all secrets of a pair are dead, its next ones are derived from them in the same rollover: the latest
of them comes before the current period, so that at least its old place can be filled. For that, periods
must have a length. Where they have none, every secret is dead at once and none is current, so a rollover
retires all that is known of the pair and holds nothing in its place.

## Main definitions

* `Rollover.Keeps` — a rollover holds some secret of a pair.

## Main statements

* `Rollover.keeps_iff` — a pair is kept as long as its periods have a length.
-/

namespace SealedStream.Rollover

open Std

/-- Some secret of the pair is held. -/
def Keeps (r : Rollover) (pair : Pair) : Prop := (r.held[pair]?).elim [] Trio.secrets ≠ []

instance (r : Rollover) (pair : Pair) : Decidable (r.Keeps pair) :=
  inferInstanceAs (Decidable (_ ≠ _))

theorem keeps_iff_exists_get {r : Rollover} {pair : Pair} :
    r.Keeps pair ↔ ∃ turn x, (r.held[pair]?).bind (·.get turn) = some x := by
  unfold Keeps
  cases r.held[pair]? with
  | none => simp
  | some trio =>
    simp only [Option.elim_some, Option.bind_some, ne_eq, List.eq_nil_iff_forall_not_mem,
      Trio.mem_secrets, not_forall, not_not]
    exact exists_comm

/-- Periods have no length only if there is no latency and nothing is left of the tolerance. -/
theorem interval_pos_iff {latency tolerance : Nat} :
    0 < Schedule.interval latency tolerance ↔ latency ≠ 0 ∨ Count.wrap tolerance ≠ 0 := by
  unfold Schedule.interval Count.plus Count.top
  omega

variable {suite : Suite} {now : Nat} {latencies : ExtTreeMap Transport Nat} {tolerance latency : Nat}
  {secrets : List PeriodSecret} {pair : Pair} {r : Rollover}

/-- A place that has some source before it is filled, whatever is derived for the places before. -/
theorem exists_mem_deriveMissing {link : Link} {current period : Nat} {sources : List PeriodSecret}
    {turns : List Turn} {turn : Turn} (mem : turn ∈ turns) (target : turn.period current = some period)
    (earlier : ∃ s ∈ sources, s.period < period) :
    ∃ x ∈ deriveMissing suite link current sources turns, x.period = period := by
  induction turns using List.reverseRecOn with
  | nil => cases mem
  | append_singleton turns last ih =>
    rw [deriveMissing_append_singleton]
    rcases List.mem_append.1 mem with before | own
    · obtain ⟨x, derived, same⟩ := ih before
      exact ⟨x, List.mem_append_left _ derived, same⟩
    · obtain rfl := List.mem_singleton.1 own
      generalize deriveMissing suite link current sources turns = created
      cases found : latestBelow period (sources ++ created) with
      | none =>
        obtain ⟨s, known, lt⟩ := earlier
        have late := latestBelow_eq_none_iff.1 found s (List.mem_append_left _ known)
        exact absurd lt (Nat.not_lt.2 late)
      | some source =>
        refine ⟨.fresh link period (suite.walk source.period period source.key), ?_, rfl⟩
        simp [target, derive?, found]

/-- Secrets that are all dead have a successor: the place before the current period is filled. -/
theorem exists_get_fill_of_dead {interval : Nat} {first : PeriodSecret} {dead : List PeriodSecret}
    {t : Trio} (pos : 0 < interval) (vacant : t.Vacant)
    (expired : (Schedule.lifespan first.link.epoch interval first.period).stageAt now = .dead) :
    ∃ x, (fill suite now interval (first :: dead) t).1.get .old = some x := by
  rw [Schedule.stageAt_eq_dead_iff pos] at expired
  obtain ⟨current, at_now, cycle⟩ := Schedule.exists_periodAt pos
    (show 0 < Schedule.cycle first.link.epoch interval now by omega)
  have target : Turn.old.period current = some (current - 1) := by
    obtain ⟨before, rfl⟩ := Nat.exists_eq_add_of_lt (Schedule.pos_of_periodAt at_now)
    simp [Turn.period, Count.pred?]
  have missing : Turn.old ∈ t.missing := Trio.mem_missing.2 (Trio.vacant_iff.1 vacant _)
  obtain ⟨x, mem, period⟩ := @exists_mem_deriveMissing suite first.link current (current - 1)
    (first :: dead) t.missing .old missing target ⟨first, List.mem_cons_self, by omega⟩
  have live : (Schedule.lifespan first.link.epoch interval x.period).stageAt now = .live .old := by
    rw [Schedule.stageAt_eq_live_iff pos]
    simp only [Turn.offset]
    omega
  have filled : fill suite now interval (first :: dead) t =
      (place now interval first.link
        (deriveMissing suite first.link current (first :: dead) t.missing) t,
      deriveMissing suite first.link current (first :: dead) t.missing) := by
    have none : t.secrets = [] := vacant
    simp [fill, none, at_now]
  rw [filled, place_eq_setAll, ← Option.isSome_iff_exists, Trio.get_setAll, Option.isSome_or,
    List.find?_isSome.2 ⟨x, List.mem_reverse.2 mem, by simp [live]⟩, Bool.true_or]

section Planned

variable (plans : plan suite now latencies tolerance secrets = .ok r)
  (known : latencies[pair.transport]? = some latency)
include plans known

/-- If periods have no length, all secrets of the pair are dead. -/
theorem stage?_of_interval_eq_zero (none : Schedule.interval latency tolerance = 0) {s : PeriodSecret}
    (mem : s ∈ secrets) (own : s.pair = pair) : stage? now latencies tolerance s = some .dead := by
  obtain ⟨timely, -⟩ := plan_eq_ok plans
  have timely := timely s mem
  subst own
  rw [stage?, lifespan?, show latencies[s.link.transport]? = some latency from known] at timely ⊢
  simp only [Option.map_some, Option.some.injEq, ne_eq] at timely ⊢
  cases stage : (Schedule.lifespan s.link.epoch (Schedule.interval latency tolerance)
      s.period).stageAt now with
  | notYetCreated => exact absurd stage timely
  | live turn => exact absurd (Schedule.pos_of_live stage) (by omega)
  | dead => rfl

/-- A pair of which some secret is live has that place filled, and a pair of which all are dead has its
old place filled. -/
theorem exists_get_filling (pos : 0 < Schedule.interval latency tolerance)
    (any : ∃ s ∈ secrets, s.pair = pair) :
    ∃ turn x, (filling suite now latencies tolerance secrets pair latency).1.get turn = some x := by
  by_cases some_live : ∃ s ∈ secrets, s.pair = pair ∧
      ∃ turn, stage? now latencies tolerance s = some (.live turn)
  · obtain ⟨s, mem, rfl, turn, live⟩ := some_live
    obtain ⟨x, stands⟩ := exists_get_liveTrio mem live
    exact ⟨turn, x, get_filling_of_get_liveTrio stands⟩
  · have vacant : (liveTrio now latencies tolerance secrets pair).Vacant := by
      refine Trio.vacant_iff.2 fun turn => Option.eq_none_iff_forall_ne_some.2 fun x stands => ?_
      obtain ⟨mem, own, live⟩ := of_get_liveTrio stands
      exact some_live ⟨x, mem, own, turn, live⟩
    obtain ⟨s, mem, own⟩ := any
    have dead : stage? now latencies tolerance s = some .dead := by
      obtain ⟨timely, -⟩ := plan_eq_ok plans
      cases stage : stage? now latencies tolerance s with
      | none =>
        rw [stage?_eq_none_iff, own, known] at stage
        cases stage
      | some stage' =>
        cases stage' with
        | notYetCreated => exact absurd stage (timely s mem)
        | live turn => exact absurd ⟨s, mem, own, turn, stage⟩ some_live
        | dead => rfl
    unfold filling
    have there : s ∈ (deadOf now latencies tolerance secrets).filter (·.pair = pair) := by
      simp [deadOf, mem, dead, own]
    generalize retired : (deadOf now latencies tolerance secrets).filter (·.pair = pair) = all
      at there
    cases all with
    | nil => cases there
    | cons first rest =>
      have mem : first ∈ (deadOf now latencies tolerance secrets).filter (·.pair = pair) := by
        simp [retired]
      simp only [deadOf, List.mem_filter, decide_eq_true_eq] at mem
      obtain ⟨⟨-, dead⟩, rfl⟩ := mem
      rw [stage?, lifespan?, show latencies[first.link.transport]? = some latency from known] at dead
      exact ⟨.old, exists_get_fill_of_dead pos vacant (Option.some.inj dead)⟩

/-- A rollover keeps every pair that has a secret, unless its periods have no length. A pair that it does
not keep has only dead secrets. The times of created secrets never leave their range
(`Schedule.fits_of_created`), so this is what the program does wherever it can count the current
periods. -/
theorem keeps_iff (any : ∃ s ∈ secrets, s.pair = pair) :
    (r.Keeps pair ↔ latency ≠ 0 ∨ Count.wrap tolerance ≠ 0) ∧
      (¬ r.Keeps pair → ∀ s ∈ secrets, s.pair = pair → s ∈ r.dead) := by
  obtain ⟨timely, held⟩ := plan_eq_ok plans
  have kept_iff : r.Keeps pair ↔ 0 < Schedule.interval latency tolerance := by
    rw [keeps_iff_exists_get, held]
    simp only [get_held_iff timely, known, Option.some.injEq, exists_eq_left', any, true_and]
    constructor
    · rintro ⟨turn, x, stands⟩
      rcases filling_cases suite now latencies tolerance secrets pair latency with
        none | ⟨first, -, -, current, at_now, -⟩
      · rw [none] at stands
        obtain ⟨mem, own, live⟩ := of_get_liveTrio stands
        by_contra zero
        rw [stage?_of_interval_eq_zero plans known (by omega) mem own] at live
        cases live
      · exact Schedule.interval_pos_of_periodAt at_now
    · intro pos
      exact exists_get_filling plans known pos any
  refine ⟨kept_iff.trans interval_pos_iff, fun lost s mem own => ?_⟩
  have none : Schedule.interval latency tolerance = 0 := by
    rw [kept_iff] at lost
    omega
  exact (told_of_mem plans mem).1.2 (stage?_of_interval_eq_zero plans known none mem own)

end Planned

/-- At 95, the secrets of both pairs are dead. Of a tolerance of 2 ^ 64 nothing is left, so one pair has
periods of length 7 and the other one has periods without length. -/
theorem keeps_iff_either :
    let a : Link := ⟨⟨1, "tcp"⟩, 0, .alice⟩
    let b : Link := ⟨⟨1, "bt"⟩, 0, .bob⟩
    let secrets : List PeriodSecret := [.fresh b 3 .wiped, .fresh a 4 .wiped, .fresh a 2 .wiped]
    let latencies : ExtTreeMap Transport Nat :=
      ((∅ : ExtTreeMap Transport Nat).insert "tcp" 7).insert "bt" 0
    ∃ r, plan bare 95 latencies 18446744073709551616 secrets = .ok r ∧
      r.Keeps a.toPair ∧ ¬ r.Keeps b.toPair ∧ .fresh b 3 .wiped ∈ r.dead := by
  intro a b secrets latencies
  obtain ⟨r, plans⟩ : ∃ r, plan bare 95 latencies 18446744073709551616 secrets = .ok r :=
    exists_plan (by decide +kernel)
  have kept := keeps_iff plans (show latencies["tcp"]? = some 7 by decide)
    ⟨.fresh a 4 .wiped, by simp [secrets], rfl⟩
  have lost := keeps_iff plans (show latencies["bt"]? = some 0 by decide)
    ⟨.fresh b 3 .wiped, by simp [secrets], rfl⟩
  have gone : ¬ r.Keeps b.toPair := fun keeps => absurd (lost.1.1 keeps) (by decide)
  exact ⟨r, plans, kept.1.2 (by decide), gone, lost.2 gone _ (by simp [secrets]) rfl⟩

/-- Without latency, a pair with a secret is not kept if the tolerance is zero or 2 ^ 64. It would be with
the greatest tolerance that counts in full. -/
theorem not_keeps_without_latency :
    let secrets : List PeriodSecret := [.fresh ⟨⟨1, "tcp"⟩, 1000, .alice⟩ 1 .wiped]
    let latencies : ExtTreeMap Transport Nat := (∅ : ExtTreeMap Transport Nat).insert "tcp" 0
    let kept (tolerance : Nat) : Option Bool :=
      (plan bare 1001 latencies tolerance secrets).toOption.map fun r => r.Keeps ⟨1, "tcp"⟩
    kept 0 = some false ∧ kept 18446744073709551616 = some false ∧ kept Count.top = some true := by
  decide +kernel

end SealedStream.Rollover
