import SealedStream.Proofs.Rollover.Links

/-!
# Where derived secrets come from

A missing secret is derived from the latest one of its pair before it. That may be a secret that was
itself derived for an earlier place, but then the walk only goes on from where the other one ended. So
what is derived is told by the given secrets alone, whatever their keys are and in whatever order they
are given.

## Main definitions

* `Rollover.Uniform` — secrets that are told apart by their identities, those of a pair with one link.
* `Rollover.LatestBefore` — the latest secret of a pair before a period.
* `Rollover.Due` — what is derived for some secrets.

## Main statements

* `Rollover.deriveMissing_eq` — every place is filled from the given secrets.
* `Rollover.Uniform.mem_created`, `Rollover.Uniform.get_held` — what a rollover derives and holds.
-/

namespace SealedStream

theorem PeriodSecret.id_eq_iff {s t : PeriodSecret} :
    s.id = t.id ↔ s.pair = t.pair ∧ s.period = t.period :=
  PeriodId.mk.injEq .. ▸ Iff.rfl

theorem PeriodSecret.id_eq_mk_iff {s : PeriodSecret} {pair : Pair} {period : Nat} :
    s.id = ⟨pair, period⟩ ↔ s.pair = pair ∧ s.period = period :=
  PeriodId.mk.injEq .. ▸ Iff.rfl

namespace Rollover

open Std

/-! ## The latest secret before a period -/

section Latest

variable {suite : Suite} {link : Link} {current period : Nat} {sources created : List PeriodSecret}
  {turns : List Turn} {s x : PeriodSecret}

theorem le_of_latestBelow (h : latestBelow period sources = some s) :
    ∀ x ∈ sources, x.period < period → x.period ≤ s.period := by
  induction sources using List.reverseRecOn generalizing s with
  | nil => simp
  | append_singleton sources y ih =>
    rw [latestBelow_append_singleton] at h
    cases found : latestBelow period sources with
    | none =>
      have late := latestBelow_eq_none_iff.1 found
      grind
    | some b => grind

/-- The periods of the secrets tell them apart. -/
def Apart (sources : List PeriodSecret) : Prop :=
  ∀ s ∈ sources, ∀ t ∈ sources, s.period = t.period → s = t

theorem latestBelow_eq_some_iff (apart : Apart sources) :
    latestBelow period sources = some s ↔
      s ∈ sources ∧ s.period < period ∧ ∀ x ∈ sources, x.period < period → x.period ≤ s.period := by
  constructor
  · intro found
    obtain ⟨mem, lt⟩ := mem_of_latestBelow found
    exact ⟨mem, lt, le_of_latestBelow found⟩
  · rintro ⟨mem, lt, latest⟩
    cases found : latestBelow period sources with
    | none => exact absurd (latestBelow_eq_none_iff.1 found s mem) (Nat.not_le.2 lt)
    | some b =>
      obtain ⟨mem', lt'⟩ := mem_of_latestBelow found
      have same := Nat.le_antisymm (latest b mem' lt') (le_of_latestBelow found s mem lt)
      rw [apart b mem' s mem same]

theorem of_derive? (h : derive? suite link period sources = some x) :
    ∃ source ∈ sources, source.period < period ∧
      x = .fresh link period (suite.walk source.period period source.key) := by
  obtain ⟨source, found, rfl⟩ := Option.map_eq_some_iff.1 h
  obtain ⟨mem, lt⟩ := mem_of_latestBelow found
  exact ⟨source, mem, lt, rfl⟩

/-- Secrets that were derived from the same ones do not matter as sources. -/
theorem derive?_append (apart : Apart sources) (le_top : period ≤ Count.top)
    (derived : ∀ y ∈ created, derive? suite link y.period sources = some y ∧
      ∀ s ∈ sources, s.period ≠ y.period) :
    derive? suite link period (sources ++ created) = derive? suite link period sources := by
  -- Before a derived secret there is the one that it was derived from.
  have earlier {y : PeriodSecret} (mem : y ∈ created) : ∃ s ∈ sources, s.period < y.period := by
    obtain ⟨s, known, lt, -⟩ := of_derive? (derived y mem).1
    exact ⟨s, known, lt⟩
  cases found : latestBelow period sources with
  | none =>
    have none : latestBelow period (sources ++ created) = none := by
      have late := latestBelow_eq_none_iff.1 found
      rw [latestBelow_eq_none_iff]
      intro y mem
      rcases List.mem_append.1 mem with mem | mem
      · exact late y mem
      · obtain ⟨s, known, lt⟩ := earlier mem
        exact (late s known).trans lt.le
    rw [derive?, derive?, found, none]
  | some b =>
    obtain ⟨mem, lt⟩ := mem_of_latestBelow found
    have latest := le_of_latestBelow found
    cases found' : latestBelow period (sources ++ created) with
    | none =>
      exact absurd (latestBelow_eq_none_iff.1 found' b (List.mem_append_left _ mem)) (Nat.not_le.2 lt)
    | some y =>
      obtain ⟨mem', lt'⟩ := mem_of_latestBelow found'
      have le : b.period ≤ y.period := le_of_latestBelow found' b (List.mem_append_left _ mem) lt
      rw [derive?, derive?, found, found', Option.map_some, Option.map_some]
      rcases List.mem_append.1 mem' with known | mem'
      · rw [apart y known b mem (Nat.le_antisymm (latest y known lt') le)]
      · obtain ⟨again, ne⟩ := derived y mem'
        have before : b.period < y.period := Nat.lt_of_le_of_ne le (ne b mem)
        have same : latestBelow y.period sources = some b :=
          (latestBelow_eq_some_iff apart).2
            ⟨mem, before, fun x known below => latest x known (below.trans lt')⟩
        rw [derive?, same, Option.map_some, Option.some.injEq] at again
        have key : y.key = suite.walk b.period y.period b.key := by rw [← again]; rfl
        rw [key, Suite.walk_walk suite before.le lt'.le (lt'.trans_le le_top)]

/-- In the empty places come the secrets that are derived from the given ones. -/
theorem deriveMissing_eq (apart : Apart sources) (le_top : current ≤ Count.top)
    (empty : ∀ turn ∈ turns, ∀ period, turn.period current = some period →
      ∀ s ∈ sources, s.period ≠ period) :
    deriveMissing suite link current sources turns =
      turns.filterMap fun turn =>
        (turn.period current).bind fun period => derive? suite link period sources := by
  induction turns using List.reverseRecOn with
  | nil => rfl
  | append_singleton turns turn ih =>
    have before := ih fun turn mem => empty turn (List.mem_append_left _ mem)
    rw [deriveMissing_append_singleton, List.filterMap_append, before]
    congr 1
    cases target : turn.period current with
    | none => simp [target]
    | some period =>
      rw [Option.bind_some, derive?_append apart (Turn.le_top_of_period le_top target)]
      · cases found : derive? suite link period sources <;> simp [target, found]
      · intro y mem
        obtain ⟨turn', mem, found⟩ := List.mem_filterMap.1 mem
        obtain ⟨p, target', found⟩ := Option.bind_eq_some_iff.1 found
        have fresh : y.period = p := by
          obtain ⟨-, -, -, rfl⟩ := of_derive? found
          rfl
        rw [fresh]
        exact ⟨found, empty turn' (List.mem_append_left _ mem) p target'⟩

end Latest

/-! ## The secrets of a rollover -/

/-- The secrets are told apart by their identities, and those of a pair have one link. -/
structure Uniform (secrets : List PeriodSecret) : Prop where
  distinct : ∀ s ∈ secrets, ∀ t ∈ secrets, s.id = t.id → s = t
  link : ∀ s ∈ secrets, ∀ t ∈ secrets, s.pair = t.pair → s.link = t.link

/-- The secret is the latest one of a pair before a period. -/
structure LatestBefore (secrets : List PeriodSecret) (pair : Pair) (period : Nat) (s : PeriodSecret) :
    Prop where
  mem : s ∈ secrets
  pair_eq : s.pair = pair
  lt : s.period < period
  le : ∀ x ∈ secrets, x.pair = pair → x.period < period → x.period ≤ s.period

/-- The current period of a link; `none` before its epoch, or if its transport has no latency. -/
def current? (now : Nat) (latencies : ExtTreeMap Transport Nat) (tolerance : Nat) (link : Link) :
    Option Nat :=
  (latencies[link.transport]?).bind fun latency =>
    Schedule.periodAt link.epoch (Schedule.interval latency tolerance) now

/-- The secret is to be derived: it is missing, its period is one of the three around the current one,
and its key is found by a walk from the latest secret before it. -/
structure Due (suite : Suite) (now : Nat) (latencies : ExtTreeMap Transport Nat) (tolerance : Nat)
    (secrets : List PeriodSecret) (x : PeriodSecret) : Prop where
  missing : ∀ s ∈ secrets, s.id ≠ x.id
  near : ∃ current, ∃ turn : Turn, current? now latencies tolerance x.link = some current ∧
    turn.period current = some x.period
  derived : ∃ source, LatestBefore secrets x.pair x.period source ∧
    x = .fresh source.link x.period (suite.walk source.period x.period source.key)

/-- Every current period is below the greatest count. -/
def Bounded (now : Nat) (latencies : ExtTreeMap Transport Nat) (tolerance : Nat)
    (secrets : List PeriodSecret) : Prop :=
  ∀ s ∈ secrets, ∀ current, current? now latencies tolerance s.link = some current →
    current < Count.top

variable {suite : Suite} {origin : Pair → Origin} {now : Nat} {latencies : ExtTreeMap Transport Nat}
  {tolerance : Nat} {secrets : List PeriodSecret}

theorem exists_latestBefore {pair : Pair} {period : Nat}
    (any : ∃ s ∈ secrets, s.pair = pair ∧ s.period < period) :
    ∃ source, LatestBefore secrets pair period source := by
  obtain ⟨s, mem, own, lt⟩ := any
  have of_pair {x : PeriodSecret} : x ∈ secrets.filter (·.pair = pair) ↔ x ∈ secrets ∧ x.pair = pair := by
    simp
  cases found : latestBelow period (secrets.filter (·.pair = pair)) with
  | none => exact absurd (latestBelow_eq_none_iff.1 found s (of_pair.2 ⟨mem, own⟩)) (Nat.not_le.2 lt)
  | some source =>
    obtain ⟨mem', lt'⟩ := mem_of_latestBelow found
    obtain ⟨mem', own'⟩ := of_pair.1 mem'
    exact ⟨source, mem', own', lt', fun x known own =>
      le_of_latestBelow found x (of_pair.2 ⟨known, own⟩)⟩

theorem LatestBefore.unique (uniform : Uniform secrets) {pair : Pair} {period : Nat}
    {s t : PeriodSecret} (hs : LatestBefore secrets pair period s)
    (ht : LatestBefore secrets pair period t) : s = t := by
  have same : s.period = t.period :=
    Nat.le_antisymm (ht.le s hs.mem hs.pair_eq hs.lt) (hs.le t ht.mem ht.pair_eq ht.lt)
  exact uniform.distinct s hs.mem t ht.mem
    (PeriodSecret.id_eq_iff.2 ⟨hs.pair_eq.trans ht.pair_eq.symm, same⟩)

/-- A clock that is far from the greatest count bounds the current periods. -/
theorem bounded_of_lt (lt : now + 1 < Count.top) : Bounded now latencies tolerance secrets := by
  intro s mem current at_now
  obtain ⟨latency, -, at_now⟩ := Option.bind_eq_some_iff.1 at_now
  have le : (now - s.link.epoch) / Schedule.interval latency tolerance ≤ now - s.link.epoch :=
    Nat.div_le_self ..
  rw [(Schedule.of_periodAt at_now).2]
  omega

section Current

variable {x : PeriodSecret} {current : Nat}
  (at_now : current? now latencies tolerance x.link = some current)
include at_now

theorem exists_interval : ∃ interval, 0 < interval ∧
    (current : Int) = Schedule.cycle x.link.epoch interval now ∧
      stage? now latencies tolerance x =
        some ((Schedule.lifespan x.link.epoch interval x.period).stageAt now) := by
  obtain ⟨latency, known, at_now⟩ := Option.bind_eq_some_iff.1 at_now
  have pos := Schedule.interval_pos_of_periodAt at_now
  refine ⟨_, pos, ((Schedule.periodAt_eq_some_iff pos).1 at_now).2, ?_⟩
  rw [stage?, lifespan?, known]
  rfl

/-- The stage of a secret from its distance to the current period. -/
theorem stage?_eq_live_iff {turn : Turn} :
    stage? now latencies tolerance x = some (.live turn) ↔
      (x.period : Int) = current + turn.offset := by
  obtain ⟨interval, pos, cycle, stage⟩ := exists_interval at_now
  rw [stage, Option.some.injEq, Schedule.stageAt_eq_live_iff pos, cycle]

theorem stage?_eq_dead_iff :
    stage? now latencies tolerance x = some .dead ↔ x.period + 2 ≤ current := by
  obtain ⟨interval, pos, cycle, stage⟩ := exists_interval at_now
  rw [stage, Option.some.injEq, Schedule.stageAt_eq_dead_iff pos]
  omega

theorem stage?_eq_notYetCreated_iff :
    stage? now latencies tolerance x = some .notYetCreated ↔ current + 2 ≤ x.period := by
  obtain ⟨interval, pos, cycle, stage⟩ := exists_interval at_now
  rw [stage, Option.some.injEq, Schedule.stageAt_eq_notYetCreated_iff pos]
  omega

end Current

theorem Due.live {x : PeriodSecret} (due : Due suite now latencies tolerance secrets x) :
    ∃ turn, stage? now latencies tolerance x = some (.live turn) := by
  obtain ⟨current, turn, at_now, target⟩ := due.near
  exact ⟨turn, (stage?_eq_live_iff at_now).2 (Turn.eq_add_offset_of_period target)⟩

/-- Secrets of one link have one origin, of which the handshake does not matter. -/
theorem Uniform.exists_linked (uniform : Uniform secrets) : ∃ origin, Linked origin secrets := by
  classical
  have origin (pair : Pair) : ∃ o : Origin, ∀ s ∈ secrets, s.pair = pair → s.link = o.link pair := by
    by_cases any : ∃ s ∈ secrets, s.pair = pair
    · obtain ⟨t, mem, rfl⟩ := any
      refine ⟨⟨t.link.epoch, t.link.side, .wiped⟩, fun s mem' same => ?_⟩
      rw [uniform.link s mem' t mem same]
      rfl
    · exact ⟨⟨0, .alice, .wiped⟩, fun s mem own => absurd ⟨s, mem, own⟩ any⟩
  choose o links using origin
  exact ⟨o, fun s mem => links s.pair s mem rfl, uniform.distinct⟩

namespace Linked

variable (linked : Linked origin secrets)
include linked

theorem apart_sources (pair : Pair) : Apart (sources now latencies tolerance secrets pair) := by
  intro s mem t mem' same
  obtain ⟨mem, own⟩ := of_mem_sources mem
  obtain ⟨mem', own'⟩ := of_mem_sources mem'
  exact linked.distinct s mem t mem' (PeriodSecret.id_eq_iff.2 ⟨own.trans own'.symm, same⟩)

section Filling

variable (timely : Timely now latencies tolerance secrets) {pair : Pair} {latency : Nat}
  (known : latencies[pair.transport]? = some latency)

include known in
/-- A place is empty if no secret has the period that belongs there. -/
theorem get_liveTrio_eq_none_iff {current period : Nat} {turn : Turn}
    (at_now : Schedule.periodAt (origin pair).epoch (Schedule.interval latency tolerance) now =
      some current) (target : turn.period current = some period) :
    (liveTrio now latencies tolerance secrets pair).get turn = none ↔
      ∀ s ∈ secrets, s.id ≠ ⟨pair, period⟩ := by
  have pos := Schedule.interval_pos_of_periodAt at_now
  obtain ⟨-, cycle⟩ := (Schedule.periodAt_eq_some_iff pos).1 at_now
  have place := Turn.eq_add_offset_of_period target
  rw [Option.eq_none_iff_forall_ne_some]
  constructor
  · intro empty s mem same
    obtain ⟨own, rfl⟩ := PeriodId.mk.inj same
    obtain rfl : s.pair = pair := own
    refine empty s (linked.get_liveTrio.2 ⟨mem, rfl, ?_⟩)
    rw [stage?_of_link known (linked.link s mem), Option.some.injEq]
    apply (Schedule.stageAt_eq_live_iff pos).2
    omega
  · intro nobody s stands
    obtain ⟨mem, rfl, live⟩ := linked.get_liveTrio.1 stands
    rw [stage?_of_link known (linked.link s mem), Option.some.injEq,
      Schedule.stageAt_eq_live_iff pos] at live
    have same : s.period = period := by omega
    exact nobody s mem (same ▸ rfl)

include known in
theorem current?_eq {s : PeriodSecret} (mem : s ∈ secrets) (own : s.pair = pair) :
    current? now latencies tolerance s.link =
      Schedule.periodAt (origin pair).epoch (Schedule.interval latency tolerance) now := by
  subst own
  rw [current?, show latencies[s.link.transport]? = some latency from known, linked.link s mem]
  rfl

include known in
/-- The source of a secret that is due shows the link of the pair. -/
theorem current?_of_due {x : PeriodSecret} (due : Due suite now latencies tolerance secrets x)
    (own : x.pair = pair) :
    current? now latencies tolerance x.link =
      Schedule.periodAt (origin pair).epoch (Schedule.interval latency tolerance) now := by
  obtain ⟨-, -, source, before, fresh⟩ := due
  rw [show x.link = source.link from fresh ▸ rfl]
  exact linked.current?_eq known before.mem (before.pair_eq.trans own)

include known in
/-- No source has a period whose place is empty. -/
theorem period_ne_of_missing {current : Nat}
    (at_now : Schedule.periodAt (origin pair).epoch (Schedule.interval latency tolerance) now =
      some current) :
    ∀ turn ∈ (liveTrio now latencies tolerance secrets pair).missing, ∀ period,
      turn.period current = some period →
        ∀ s ∈ sources now latencies tolerance secrets pair, s.period ≠ period := by
  intro turn missing period target s mem same
  obtain ⟨mem', own⟩ := of_mem_sources mem
  exact (linked.get_liveTrio_eq_none_iff known at_now target).1 (Trio.mem_missing.1 missing) s mem'
    (PeriodSecret.id_eq_mk_iff.2 ⟨own, same⟩)

include timely known

theorem derive?_sources_iff {link : Link} {period : Nat} {x : PeriodSecret} :
    derive? suite link period (sources now latencies tolerance secrets pair) = some x ↔
      ∃ source, LatestBefore secrets pair period source ∧
        x = .fresh link period (suite.walk source.period period source.key) := by
  have mem_sources {s : PeriodSecret} :
      s ∈ sources now latencies tolerance secrets pair ↔ s ∈ secrets ∧ s.pair = pair :=
    linked.mem_sources timely (by simp [known])
  simp only [derive?, Option.map_eq_some_iff, latestBelow_eq_some_iff (linked.apart_sources pair),
    mem_sources]
  constructor
  · rintro ⟨source, ⟨⟨mem, own⟩, lt, latest⟩, rfl⟩
    exact ⟨source, ⟨mem, own, lt, fun x known own' => latest x ⟨known, own'⟩⟩, rfl⟩
  · rintro ⟨source, ⟨mem, own, lt, latest⟩, rfl⟩
    exact ⟨source, ⟨⟨mem, own⟩, lt, fun x mem => latest x mem.1 mem.2⟩, rfl⟩

/-- What is derived for a pair is what is due of it. -/
theorem mem_filling (any : ∃ s ∈ secrets, s.pair = pair)
    (bounded : Bounded now latencies tolerance secrets) {x : PeriodSecret} :
    x ∈ (filling suite now latencies tolerance secrets pair latency).2 ↔
      x.pair = pair ∧ Due suite now latencies tolerance secrets x := by
  obtain ⟨s₀, mem₀, own₀⟩ := any
  have ne : latencies[pair.transport]? ≠ none := by simp [known]
  have mem_sources {s : PeriodSecret} := linked.mem_sources timely ne (s := s)
  have links : ∀ s ∈ sources now latencies tolerance secrets pair,
      s.link = (origin pair).link pair := by
    intro s mem
    obtain ⟨mem', rfl⟩ := mem_sources.1 mem
    exact linked.link s mem'
  rw [filling, fill_eq links (List.ne_nil_of_mem (mem_sources.2 ⟨mem₀, own₀⟩))]
  cases at_now : Schedule.periodAt (origin pair).epoch (Schedule.interval latency tolerance) now with
  | none =>
    simp only [List.not_mem_nil, false_iff, not_and]
    intro own due
    obtain ⟨current, turn, at_x, -⟩ := due.near
    rw [linked.current?_of_due known due own, at_now] at at_x
    cases at_x
  | some current =>
    have le_top : current ≤ Count.top :=
      (bounded s₀ mem₀ current ((linked.current?_eq known mem₀ own₀).trans at_now)).le
    have empty_iff {turn : Turn} {period : Nat} (target : turn.period current = some period) :=
      linked.get_liveTrio_eq_none_iff known at_now target
    change x ∈ deriveMissing suite _ current (sources now latencies tolerance secrets pair) _ ↔ _
    rw [deriveMissing_eq (linked.apart_sources pair) le_top (linked.period_ne_of_missing known at_now)]
    simp only [List.mem_filterMap, Trio.mem_missing, Option.bind_eq_some_iff,
      linked.derive?_sources_iff timely known]
    constructor
    · rintro ⟨turn, missing, period, target, source, before, rfl⟩
      obtain rfl : source.pair = pair := before.pair_eq
      have at_source := (linked.current?_eq known before.mem rfl).trans at_now
      rw [← linked.link source before.mem]
      exact ⟨rfl, (empty_iff target).1 missing, ⟨current, turn, at_source, target⟩, source, before,
        rfl⟩
    · rintro ⟨rfl, due⟩
      obtain ⟨current', turn, at_x, target⟩ := due.near
      rw [linked.current?_of_due known due rfl, at_now] at at_x
      cases at_x
      obtain ⟨source, before, fresh⟩ := due.derived
      refine ⟨turn, (empty_iff target).2 due.missing, x.period, target, source, before, ?_⟩
      have link := linked.link source before.mem
      rw [before.pair_eq] at link
      rw [← link]
      exact fresh

end Filling

end Linked

/-! ## The rollover -/

namespace Uniform

variable (uniform : Uniform secrets) {r : Rollover}
  (plans : plan suite now latencies tolerance secrets = .ok r)
include uniform plans

/-- A rollover derives what is due. -/
theorem mem_created (bounded : Bounded now latencies tolerance secrets) {x : PeriodSecret} :
    x ∈ r.created ↔ Due suite now latencies tolerance secrets x := by
  obtain ⟨origin, linked⟩ := uniform.exists_linked
  obtain ⟨timely, rfl⟩ := plan_eq_ok plans
  rw [List.mem_flatMap]
  constructor
  · rintro ⟨f, there, mem⟩
    obtain ⟨pair, there⟩ := mem_values.1 there
    obtain ⟨latency, known, any, rfl⟩ := (filled_eq_some_iff timely).1 there
    exact ((linked.mem_filling timely known any bounded).1 mem).2
  · intro due
    obtain ⟨source, before, fresh⟩ := due.derived
    obtain ⟨current, turn, at_x, -⟩ := due.near
    obtain ⟨latency, known, -⟩ := Option.bind_eq_some_iff.1 at_x
    have any : ∃ s ∈ secrets, s.pair = x.pair := ⟨source, before.mem, before.pair_eq⟩
    exact ⟨_, mem_values.2 ⟨x.pair, (filled_eq_some_iff timely).2 ⟨latency, known, any, rfl⟩⟩,
      (linked.mem_filling timely known any bounded).2 ⟨rfl, due⟩⟩

/-- Held are the given secrets and the derived ones, each where it stands. -/
theorem get_held {pair : Pair} {turn : Turn} {x : PeriodSecret} :
    (r.held[pair]?).bind (·.get turn) = some x ↔
      x.pair = pair ∧ (x ∈ secrets ∨ x ∈ r.created) ∧
        stage? now latencies tolerance x = some (.live turn) := by
  obtain ⟨origin, linked⟩ := uniform.exists_linked
  constructor
  · intro stands
    obtain ⟨link, mem, live⟩ := linked.of_held plans stands
    exact ⟨congrArg Link.toPair link, mem, live⟩
  · rintro ⟨rfl, given | created, live⟩
    · exact linked.held_of_live plans given live
    · obtain ⟨-, new, turn', y, stands, named⟩ := linked.of_created plans created
      obtain ⟨-, mem, live'⟩ := linked.of_held plans stands
      obtain rfl : y = x :=
        eq_of_mem_created plans (mem.resolve_left fun given => new y given named) created named
      rw [live] at live'
      cases live'
      exact stands

theorem mem_held {x : PeriodSecret} :
    x ∈ r.held.values.flatMap Trio.secrets ↔
      (x ∈ secrets ∨ x ∈ r.created) ∧ ∃ turn, stage? now latencies tolerance x = some (.live turn) := by
  rw [mem_heldSecrets]
  constructor
  · rintro ⟨pair, trio, turn, there, stands⟩
    obtain ⟨-, mem, live⟩ := (uniform.get_held plans).1 (Option.bind_eq_some_iff.2 ⟨trio, there, stands⟩)
    exact ⟨mem, turn, live⟩
  · rintro ⟨mem, turn, live⟩
    obtain ⟨trio, there, stands⟩ := Option.bind_eq_some_iff.1 ((uniform.get_held plans).2 ⟨rfl, mem, live⟩)
    exact ⟨x.pair, trio, turn, there, stands⟩

end Uniform

/-- A pair that is held has a secret. -/
theorem exists_get_of_held {r : Rollover} (plans : plan suite now latencies tolerance secrets = .ok r)
    {pair : Pair} {trio : Trio} (there : r.held[pair]? = some trio) :
    ∃ turn x, (r.held[pair]?).bind (·.get turn) = some x := by
  have occupied : ¬ trio.Vacant := by
    obtain ⟨-, rfl⟩ := plan_eq_ok plans
    rw [ExtTreeMap.getElem?_map, ExtTreeMap.getElem?_filter'] at there
    obtain ⟨f, filtered, rfl⟩ := Option.map_eq_some_iff.1 there
    simpa using (Option.filter_eq_some_iff.1 filtered).2
  simp only [Trio.vacant_iff, not_forall] at occupied
  obtain ⟨turn, occupied⟩ := occupied
  obtain ⟨x, stands⟩ := Option.ne_none_iff_exists'.1 occupied
  exact ⟨turn, x, by rw [there]; exact stands⟩

end Rollover

end SealedStream
