import SealedStream.Proofs.Rollover.Filling

/-!
# What a rollover holds

The rollover of genuine secrets, pair by pair. Of every pair whose transport has a latency, the
secrets stand where their distance to the current period puts them, and the empty places after the
earliest secret are filled with the chain's secrets.

## Main definitions

* `Rollover.cycle?` — the current period of a pair, if its transport has a latency.
* `Rollover.Linked`, `Rollover.Orderly` — what is asked of the secrets that a rollover is planned for.
* `Rollover.Planned` — which secrets a rollover holds, derives and retires.

## Main statements

* `Rollover.Orderly.planned` — a rollover of orderly secrets is as planned.
-/

namespace SealedStream.Rollover

open Std

section Stages

variable (origin : Pair → Origin) (now : Nat) (latencies : ExtTreeMap Transport Nat)
  (tolerance : Nat)

/-- The current period of a pair; `none` if its transport has no latency. -/
def cycle? (pair : Pair) : Option Int :=
  (latencies[pair.transport]?).map fun latency =>
    Schedule.cycle (origin pair).epoch (Schedule.interval latency tolerance) now

/-- The secrets have the links of their pairs and are told apart by their identities. -/
structure Linked (secrets : List PeriodSecret) : Prop where
  link : ∀ s ∈ secrets, s.link = (origin s.pair).link s.pair
  distinct : ∀ s ∈ secrets, ∀ t ∈ secrets, s.id = t.id → s = t

/-- The secrets are genuine and told apart by their identities, periods have a length, and the
current period is a count. -/
structure Orderly (suite : Suite) (secrets : List PeriodSecret) : Prop where
  genuine : ∀ s ∈ secrets, s.Genuine suite origin
  distinct : ∀ s ∈ secrets, ∀ t ∈ secrets, s.id = t.id → s = t
  pos : ∀ s ∈ secrets, ∀ latency, latencies[s.pair.transport]? = some latency →
    0 < Schedule.interval latency tolerance
  le_top : ∀ s ∈ secrets, ∀ latency current, latencies[s.pair.transport]? = some latency →
    Schedule.periodAt (origin s.pair).epoch (Schedule.interval latency tolerance) now =
      some current → current ≤ Count.top

end Stages

variable {suite : Suite} {origin : Pair → Origin} {now : Nat} {latencies : ExtTreeMap Transport Nat}
  {tolerance : Nat} {secrets : List PeriodSecret}

theorem stage?_eq_none_iff {s : PeriodSecret} :
    stage? now latencies tolerance s = none ↔ latencies[s.pair.transport]? = none := by
  simp [stage?, lifespan?, PeriodSecret.pair]

theorem stage?_eq {s : PeriodSecret} (link : s.link = (origin s.pair).link s.pair) :
    stage? now latencies tolerance s = (latencies[s.pair.transport]?).map fun latency =>
      (Schedule.lifespan (origin s.pair).epoch (Schedule.interval latency tolerance)
        s.period).stageAt now := by
  simp only [stage?, lifespan?, Option.map_map, link]
  rfl

/-- Live secrets of a pair with the same place are those of one period. -/
theorem id_eq_of_live {s t : PeriodSecret} {turn : Turn}
    (hs : s.link = (origin s.pair).link s.pair) (ht : t.link = (origin t.pair).link t.pair)
    (same : s.pair = t.pair) (live : stage? now latencies tolerance s = some (.live turn))
    (live' : stage? now latencies tolerance t = some (.live turn)) : s.id = t.id := by
  rw [stage?_eq hs, Option.map_eq_some_iff] at live
  rw [stage?_eq ht, ← same, Option.map_eq_some_iff] at live'
  obtain ⟨latency, known, live⟩ := live
  obtain ⟨latency', known', live'⟩ := live'
  obtain rfl := Option.some.inj (known.symm.trans known')
  have pos := Schedule.pos_of_live live
  rw [Schedule.stageAt_eq_live_iff pos] at live live'
  exact PeriodId.mk.injEq _ _ _ _ ▸ ⟨same, by omega⟩

namespace Orderly

variable (orderly : Orderly origin now latencies tolerance suite secrets)
include orderly

theorem linked : Linked origin secrets where
  link s mem := (orderly.genuine s mem).link
  distinct := orderly.distinct

theorem stage?_eq_dead_iff {s : PeriodSecret} (mem : s ∈ secrets) :
    stage? now latencies tolerance s = some .dead ↔
      ∃ c, cycle? origin now latencies tolerance s.pair = some c ∧ (s.period : Int) + 2 ≤ c := by
  rw [stage?_eq (orderly.genuine s mem).link, cycle?]
  cases latency : latencies[s.pair.transport]? with
  | none => simp
  | some latency' => simp [Schedule.stageAt_eq_dead_iff (orderly.pos s mem _ latency)]

theorem stage?_eq_live_iff {s : PeriodSecret} (mem : s ∈ secrets) {turn : Turn} :
    stage? now latencies tolerance s = some (.live turn) ↔
      ∃ c, cycle? origin now latencies tolerance s.pair = some c ∧
        (s.period : Int) = c + turn.offset := by
  rw [stage?_eq (orderly.genuine s mem).link, cycle?]
  cases latency : latencies[s.pair.transport]? with
  | none => simp
  | some latency' => simp [Schedule.stageAt_eq_live_iff (orderly.pos s mem _ latency)]

theorem stage?_eq_notYetCreated_iff {s : PeriodSecret} (mem : s ∈ secrets) :
    stage? now latencies tolerance s = some .notYetCreated ↔
      ∃ c, cycle? origin now latencies tolerance s.pair = some c ∧ c + 2 ≤ (s.period : Int) := by
  rw [stage?_eq (orderly.genuine s mem).link, cycle?]
  cases latency : latencies[s.pair.transport]? with
  | none => simp
  | some latency' => simp [Schedule.stageAt_eq_notYetCreated_iff (orderly.pos s mem _ latency)]

end Orderly

/-! ## The map of trios -/

theorem premature?_eq_none_iff {s : PeriodSecret} :
    premature? now latencies tolerance s = none ↔
      stage? now latencies tolerance s ≠ some .notYetCreated := by
  unfold premature? stage?
  cases lifespan? latencies tolerance s with
  | none => simp
  | some span => simp

theorem premature?_eq_some_iff {s : PeriodSecret} {fault : KeyringFault} :
    premature? now latencies tolerance s = some fault ↔
      ∃ span, lifespan? latencies tolerance s = some span ∧ span.stageAt now = .notYetCreated ∧
        fault = .clockBehind s.id now span.creation := by
  simp only [premature?, Option.bind_eq_bind, Option.bind_eq_some_iff, Option.ite_none_right_eq_some,
    Option.some.injEq]
  simp only [eq_comm]

theorem getElem?_trios (dead : List PeriodSecret) (live : ExtTreeMap Pair Trio) (pair : Pair) :
    (trios dead live)[pair]? =
      (live[pair]?).or (if ∃ s ∈ dead, s.pair = pair then some Trio.empty else none) := by
  unfold trios
  induction dead generalizing live with
  | nil => simp
  | cons s dead ih =>
    rw [List.foldl_cons, ih, ExtTreeMap.getElem?_insertIfNew]
    by_cases own : s.pair = pair
    · subst own
      by_cases mem : s.pair ∈ live
      · simp [mem]
      · simp [mem]
    · simp [own]

theorem getElem?_fillAll (dead : List PeriodSecret) (live : ExtTreeMap Pair Trio) (pair : Pair) :
    (fillAll suite now latencies tolerance dead live)[pair]? =
      ((live[pair]?).or (if ∃ s ∈ dead, s.pair = pair then some Trio.empty else none)).map fun trio =>
        match latencies[pair.transport]? with
        | none => (trio, [])
        | some latency => fill suite now (Schedule.interval latency tolerance)
            (dead.filter (·.pair = pair)) trio := by
  unfold fillAll
  rw [ExtTreeMap.getElem?_map]
  exact congrArg (Option.map _) (getElem?_trios dead live pair)

/-- The trio of a pair's live secrets before anything is derived. -/
def liveTrio (now : Nat) (latencies : ExtTreeMap Transport Nat) (tolerance : Nat)
    (secrets : List PeriodSecret) (pair : Pair) : Trio :=
  ((liveTrios (stage? now latencies tolerance) secrets)[pair]?).getD .empty

/-- The dead ones of some secrets. -/
def deadOf (now : Nat) (latencies : ExtTreeMap Transport Nat) (tolerance : Nat)
    (secrets : List PeriodSecret) : List PeriodSecret :=
  secrets.filter (stage? now latencies tolerance · = some .dead)

/-- The secrets from which those of a pair are derived. -/
def sources (now : Nat) (latencies : ExtTreeMap Transport Nat) (tolerance : Nat)
    (secrets : List PeriodSecret) (pair : Pair) : List PeriodSecret :=
  (liveTrio now latencies tolerance secrets pair).secrets ++
    (deadOf now latencies tolerance secrets).filter (·.pair = pair)

/-- No secret is not yet created. -/
def Timely (now : Nat) (latencies : ExtTreeMap Transport Nat) (tolerance : Nat)
    (secrets : List PeriodSecret) : Prop :=
  ∀ s ∈ secrets, stage? now latencies tolerance s ≠ some .notYetCreated

/-- The trios of the live secrets, filled. -/
def filled (suite : Suite) (now : Nat) (latencies : ExtTreeMap Transport Nat) (tolerance : Nat)
    (secrets : List PeriodSecret) : ExtTreeMap Pair (Trio × List PeriodSecret) :=
  fillAll suite now latencies tolerance (deadOf now latencies tolerance secrets)
    (liveTrios (stage? now latencies tolerance) secrets)

/-- The trio of a pair's live secrets, filled, and what was derived for it. -/
def filling (suite : Suite) (now : Nat) (latencies : ExtTreeMap Transport Nat) (tolerance : Nat)
    (secrets : List PeriodSecret) (pair : Pair) (latency : Nat) : Trio × List PeriodSecret :=
  fill suite now (Schedule.interval latency tolerance)
    ((deadOf now latencies tolerance secrets).filter (·.pair = pair))
    (liveTrio now latencies tolerance secrets pair)

/-- With every secret in its place or dead, the pairs of the filled trios are those of the secrets
whose transport has a latency. -/
theorem getElem?_filled (timely : Timely now latencies tolerance secrets) (pair : Pair) :
    (filled suite now latencies tolerance secrets)[pair]? =
      (latencies[pair.transport]?).bind fun latency =>
        if ∃ s ∈ secrets, s.pair = pair then
          some (filling suite now latencies tolerance secrets pair latency)
        else none := by
  have known_iff {s : PeriodSecret} (mem : s ∈ secrets) :
      (turnBy (stage? now latencies tolerance) s).isSome ∨
          stage? now latencies tolerance s = some .dead ↔
        latencies[s.pair.transport]? ≠ none := by
    rw [Ne, ← @stage?_eq_none_iff now latencies tolerance]
    have := timely s mem
    unfold turnBy
    cases stage : stage? now latencies tolerance s with
    | none => simp
    | some stage' => cases stage' <;> simp_all [Schedule.Stage.turn?]
  unfold filled filling
  rw [getElem?_fillAll]
  unfold liveTrio deadOf
  rw [getElem?_liveTrios]
  cases latency : latencies[pair.transport]? with
  | none =>
    rw [if_neg, if_neg]
    · simp
    · rintro ⟨s, mem, rfl⟩
      obtain ⟨mem, dead⟩ := List.mem_filter.1 mem
      exact (known_iff mem).1 (.inr (by simpa using dead)) latency
    · rintro ⟨s, mem, rfl, live⟩
      exact (known_iff mem).1 (.inl live) latency
  | some interval =>
    have any_iff : ((∃ s ∈ secrets, s.pair = pair ∧
          (turnBy (stage? now latencies tolerance) s).isSome) ∨
        ∃ s ∈ secrets.filter (stage? now latencies tolerance · = some .dead), s.pair = pair) ↔
          ∃ s ∈ secrets, s.pair = pair := by
      constructor
      · rintro (⟨s, mem, own, -⟩ | ⟨s, mem, own⟩)
        · exact ⟨s, mem, own⟩
        · exact ⟨s, (List.mem_filter.1 mem).1, own⟩
      · rintro ⟨s, mem, rfl⟩
        rcases (known_iff mem).2 (by simp [latency]) with live | dead
        · exact .inl ⟨s, mem, rfl, live⟩
        · exact .inr ⟨s, List.mem_filter.2 ⟨mem, by simpa using dead⟩, rfl⟩
    rw [Option.bind_some]
    by_cases live : ∃ s ∈ secrets, s.pair = pair ∧
        (turnBy (stage? now latencies tolerance) s).isSome
    · rw [if_pos live, if_pos (any_iff.1 (.inl live))]
      simp
    · rw [if_neg live]
      by_cases any : ∃ s ∈ secrets, s.pair = pair
      · rw [if_pos ((any_iff.2 any).resolve_left live), if_pos any]
        simp
      · rw [if_neg fun dead => any (any_iff.1 (.inr dead)), if_neg any]
        simp

/-- What stands in a pair's trio is one of the secrets of the pair. -/
theorem of_get_liveTrio {pair : Pair} {turn : Turn} {s : PeriodSecret}
    (stands : (liveTrio now latencies tolerance secrets pair).get turn = some s) :
    s ∈ secrets ∧ s.pair = pair ∧ stage? now latencies tolerance s = some (.live turn) := by
  unfold liveTrio at stands
  rw [getElem?_liveTrios] at stands
  split at stands
  · rcases Trio.mem_of_get_setAll stands with ⟨mem, place⟩ | stands
    · obtain ⟨mem, own⟩ := List.mem_filter.1 mem
      exact ⟨mem, by simpa using own, turnBy_eq_some_iff.1 place⟩
    · simp at stands
  · simp at stands

theorem of_mem_sources {pair : Pair} {s : PeriodSecret}
    (mem : s ∈ sources now latencies tolerance secrets pair) : s ∈ secrets ∧ s.pair = pair := by
  rcases List.mem_append.1 mem with mem | mem
  · obtain ⟨turn, stands⟩ := Trio.mem_secrets.1 mem
    obtain ⟨mem, own, -⟩ := of_get_liveTrio stands
    exact ⟨mem, own⟩
  · obtain ⟨mem, own⟩ := List.mem_filter.1 mem
    exact ⟨(List.mem_filter.1 mem).1, by simpa using own⟩

variable (suite now latencies tolerance secrets) in
/-- Whatever the secrets are, what is derived for a pair has the link of a secret of the pair. -/
theorem filling_cases (pair : Pair) (latency : Nat) :
    filling suite now latencies tolerance secrets pair latency =
        (liveTrio now latencies tolerance secrets pair, []) ∨
      ∃ first ∈ secrets, first.pair = pair ∧ ∃ current,
        Schedule.periodAt first.link.epoch (Schedule.interval latency tolerance) now = some current ∧
        let created := deriveMissing suite first.link current
          (sources now latencies tolerance secrets pair)
          (liveTrio now latencies tolerance secrets pair).missing
        filling suite now latencies tolerance secrets pair latency =
          (place now (Schedule.interval latency tolerance) first.link created
            (liveTrio now latencies tolerance secrets pair), created) := by
  rcases fill_cases with none | ⟨first, known, current, at_now, derived⟩
  · exact .inl none
  · obtain ⟨mem, own⟩ := of_mem_sources known
    exact .inr ⟨first, mem, own, current, at_now, derived⟩

/-- Whatever the secrets are, what stands in a place stays there: a derived secret stands in the empty
place that it was derived for. -/
theorem get_filling_of_get_liveTrio {pair : Pair} {latency : Nat} {turn : Turn} {s : PeriodSecret}
    (stands : (liveTrio now latencies tolerance secrets pair).get turn = some s) :
    (filling suite now latencies tolerance secrets pair latency).1.get turn = some s := by
  rcases filling_cases suite now latencies tolerance secrets pair latency with
    none | ⟨first, -, -, current, at_now, derived⟩
  · rw [none]
    exact stands
  rw [derived, place_eq_setAll, Trio.get_setAll_of_forall, stands]
  intro x mem live
  obtain ⟨-, turn', missing, target⟩ := of_mem_deriveMissing mem
  have live' := Schedule.stageAt_of_period at_now target
  rw [Schedule.Stage.turn?_eq_some_iff.1 live] at live'
  obtain rfl : turn = turn' := Schedule.Stage.live.inj live'
  rw [Trio.mem_missing, stands] at missing
  cases missing

/-- Whatever the secrets are, what stands in a place is live there. -/
theorem stage?_of_get_filling {pair : Pair} {latency : Nat} {turn : Turn} {x : PeriodSecret}
    (known : latencies[pair.transport]? = some latency)
    (stands : (filling suite now latencies tolerance secrets pair latency).1.get turn = some x) :
    stage? now latencies tolerance x = some (.live turn) := by
  rcases filling_cases suite now latencies tolerance secrets pair latency with
    none | ⟨first, -, rfl, current, -, derived⟩
  · rw [none] at stands
    exact (of_get_liveTrio stands).2.2
  rw [derived, place_eq_setAll] at stands
  rcases Trio.mem_of_get_setAll stands with ⟨mem, live⟩ | stands
  · have link := congrArg PeriodSecret.link (of_mem_deriveMissing mem).1
    replace link : x.link = first.link := link
    rw [stage?, lifespan?, link, show latencies[first.link.transport]? = some latency from known]
    exact congrArg some (Schedule.Stage.turn?_eq_some_iff.1 live)
  · exact (of_get_liveTrio stands).2.2

namespace Linked

variable (linked : Linked origin secrets)
include linked

theorem get_liveTrio {pair : Pair} {turn : Turn} {s : PeriodSecret} :
    (liveTrio now latencies tolerance secrets pair).get turn = some s ↔
      s ∈ secrets ∧ s.pair = pair ∧ stage? now latencies tolerance s = some (.live turn) := by
  refine ⟨of_get_liveTrio, ?_⟩
  rintro ⟨mem, rfl, live⟩
  unfold liveTrio
  rw [getElem?_liveTrios, if_pos ⟨s, mem, rfl, by simp [turnBy_eq_some_iff.2 live]⟩,
    Option.getD_some]
  refine Trio.get_setAll_of_mem (by simpa using mem) (turnBy_eq_some_iff.2 live) ?_
  intro x mem' live'
  obtain ⟨mem', own⟩ := List.mem_filter.1 mem'
  exact linked.distinct x mem' s mem (id_eq_of_live (linked.link x mem') (linked.link s mem)
    (by simpa using own) (turnBy_eq_some_iff.1 live') live)

theorem mem_sources (timely : Timely now latencies tolerance secrets) {pair : Pair}
    (known : latencies[pair.transport]? ≠ none) {s : PeriodSecret} :
    s ∈ sources now latencies tolerance secrets pair ↔ s ∈ secrets ∧ s.pair = pair := by
  refine ⟨of_mem_sources, ?_⟩
  simp only [sources, deadOf, List.mem_append, Trio.mem_secrets, linked.get_liveTrio,
    List.mem_filter, decide_eq_true_eq]
  rintro ⟨mem, rfl⟩
  cases stage : stage? now latencies tolerance s with
  | none => exact absurd (stage?_eq_none_iff.1 stage) known
  | some stage' =>
    cases stage' with
    | notYetCreated => exact absurd stage (timely s mem)
    | live turn => exact .inl ⟨turn, mem, rfl, rfl⟩
    | dead => exact .inr ⟨⟨mem, rfl⟩, rfl⟩

end Linked

/-! ## The rollover -/

theorem plan_eq_ok {r : Rollover} (h : plan suite now latencies tolerance secrets = .ok r) :
    Timely now latencies tolerance secrets ∧
      let trios := filled suite now latencies tolerance secrets
      r = { held := (trios.filter fun _ f => ¬ f.1.Vacant).map fun _ f => f.1
            created := trios.values.flatMap (·.2)
            dead := deadOf now latencies tolerance secrets
            orphaned := secrets.filter (stage? now latencies tolerance · = none) } := by
  unfold plan planBy at h
  split at h
  · cases h
  · rename_i timely
    refine ⟨fun s mem => premature?_eq_none_iff.1 (List.findSome?_eq_none_iff.1 timely s mem), ?_⟩
    cases h
    rfl

/-- A rollover fails for no reason but the clock, and tells of an early secret. -/
theorem of_planBy_eq_error {passage : Passage} {fault : KeyringFault}
    (h : planBy passage suite now latencies tolerance secrets = .error fault) :
    ∃ s ∈ secrets, ∃ span, lifespan? latencies tolerance s = some span ∧
      span.stageAt now = .notYetCreated ∧ fault = .clockBehind s.id now span.creation := by
  unfold planBy at h
  split at h
  · rename_i found
    cases h
    obtain ⟨s, mem, early⟩ := List.exists_of_findSome?_eq_some found
    exact ⟨s, mem, premature?_eq_some_iff.1 early⟩
  · cases h

theorem filled_eq_some_iff (timely : Timely now latencies tolerance secrets) {pair : Pair}
    {f : Trio × List PeriodSecret} :
    (filled suite now latencies tolerance secrets)[pair]? = some f ↔
      ∃ latency, latencies[pair.transport]? = some latency ∧ (∃ s ∈ secrets, s.pair = pair) ∧
        filling suite now latencies tolerance secrets pair latency = f := by
  rw [getElem?_filled timely]
  simp [Option.bind_eq_some_iff]

/-- The held trios are the filled ones that are not vacant. -/
theorem get_held_iff (timely : Timely now latencies tolerance secrets) {pair : Pair} {turn : Turn}
    {x : PeriodSecret} :
    (((((filled suite now latencies tolerance secrets).filter fun _ f => ¬ f.1.Vacant).map
        fun _ f => f.1)[pair]?).bind (·.get turn) = some x) ↔
      ∃ latency, latencies[pair.transport]? = some latency ∧ (∃ s ∈ secrets, s.pair = pair) ∧
        (filling suite now latencies tolerance secrets pair latency).1.get turn = some x := by
  rw [ExtTreeMap.getElem?_map, ExtTreeMap.getElem?_filter']
  simp only [Option.bind_eq_some_iff, Option.map_eq_some_iff, Option.filter_eq_some_iff,
    filled_eq_some_iff timely, decide_eq_true_eq]
  constructor
  · rintro ⟨_, ⟨_, ⟨⟨latency, known, any, rfl⟩, -⟩, rfl⟩, there⟩
    exact ⟨latency, known, any, there⟩
  · rintro ⟨latency, known, any, there⟩
    refine ⟨_, ⟨_, ⟨⟨latency, known, any, rfl⟩, ?_⟩, rfl⟩, there⟩
    intro vacant
    simp [Trio.vacant_iff.1 vacant turn] at there

section Created

variable {r : Rollover} (plans : plan suite now latencies tolerance secrets = .ok r)
include plans

/-- Whatever the secrets are, a derived one was derived for a place of its pair. -/
theorem of_mem_created {x : PeriodSecret} (mem : x ∈ r.created) :
    ∃ latency, latencies[x.pair.transport]? = some latency ∧
      x ∈ (filling suite now latencies tolerance secrets x.pair latency).2 ∧
      ∃ link current, (filling suite now latencies tolerance secrets x.pair latency).2 =
        deriveMissing suite link current (sources now latencies tolerance secrets x.pair)
          (liveTrio now latencies tolerance secrets x.pair).missing := by
  obtain ⟨timely, rfl⟩ := plan_eq_ok plans
  obtain ⟨f, there, mem⟩ := List.mem_flatMap.1 mem
  obtain ⟨pair, there⟩ := mem_values.1 there
  obtain ⟨latency, known, -, rfl⟩ := (filled_eq_some_iff timely).1 there
  rcases filling_cases suite now latencies tolerance secrets pair latency with
    none | ⟨first, -, own, current, -, derived⟩
  · rw [none] at mem
    cases mem
  obtain rfl : x.pair = pair := by
    rw [derived] at mem
    exact (congrArg (·.link.toPair) (of_mem_deriveMissing mem).1).trans own
  exact ⟨latency, known, mem, first.link, current, congrArg Prod.snd derived⟩

/-- Whatever the secrets are, secrets are derived for their pairs only. -/
theorem pair_of_mem_created {x : PeriodSecret} (mem : x ∈ r.created) :
    ∃ s ∈ secrets, s.pair = x.pair := by
  obtain ⟨latency, -, mem, -⟩ := of_mem_created plans mem
  rcases filling_cases suite now latencies tolerance secrets x.pair latency with
    none | ⟨first, known, own, -⟩
  · rw [none] at mem
    cases mem
  · exact ⟨first, known, own⟩

/-- Whatever the secrets are, only their pairs are held, each with secrets of its own. -/
theorem pair_of_held {pair : Pair} {trio : Trio} (there : r.held[pair]? = some trio) :
    (∃ s ∈ secrets, s.pair = pair) ∧ ∀ x ∈ trio.secrets, x.pair = pair := by
  obtain ⟨timely, rfl⟩ := plan_eq_ok plans
  rw [ExtTreeMap.getElem?_map, ExtTreeMap.getElem?_filter'] at there
  simp only [Option.map_eq_some_iff, Option.filter_eq_some_iff, filled_eq_some_iff timely] at there
  obtain ⟨_, ⟨⟨latency, -, any, rfl⟩, -⟩, rfl⟩ := there
  refine ⟨any, fun x mem => ?_⟩
  obtain ⟨turn, stands⟩ := Trio.mem_secrets.1 mem
  rcases filling_cases suite now latencies tolerance secrets pair latency with
    none | ⟨first, -, rfl, current, -, derived⟩
  · rw [none] at stands
    exact (of_get_liveTrio stands).2.1
  · rw [derived, place_eq_setAll] at stands
    rcases Trio.mem_of_get_setAll stands with ⟨mem, -⟩ | stands
    · exact congrArg (·.link.toPair) (of_mem_deriveMissing mem).1
    · exact (of_get_liveTrio stands).2.1

theorem fresh_of_mem_created {x : PeriodSecret} (mem : x ∈ r.created) :
    ∃ link period key, x = .fresh link period key := by
  obtain ⟨latency, -, mem, link, current, derived⟩ := of_mem_created plans mem
  exact ⟨link, x.period, x.key, (of_mem_deriveMissing (derived ▸ mem)).1⟩

/-- Derived secrets are told apart by their identities. -/
theorem eq_of_mem_created {x y : PeriodSecret} (mem : x ∈ r.created) (mem' : y ∈ r.created)
    (same : x.id = y.id) : x = y := by
  obtain ⟨pair, period⟩ := PeriodId.mk.inj same
  replace pair : x.pair = y.pair := pair
  obtain ⟨latency, known, mem, link, current, derived⟩ := of_mem_created plans mem
  obtain ⟨latency', known', mem', -⟩ := of_mem_created plans mem'
  rw [← pair] at known' mem'
  obtain rfl := Option.some.inj (known.symm.trans known')
  rw [derived] at mem mem'
  exact eq_of_mem_deriveMissing (List.Pairwise.filter _ (by decide)) mem mem' period

end Created

/-- What a rollover of genuine secrets says, pair by pair and period by period. -/
structure Planned (suite : Suite) (origin : Pair → Origin) (now : Nat)
    (latencies : ExtTreeMap Transport Nat) (tolerance : Nat) (secrets : List PeriodSecret)
    (r : Rollover) : Prop where
  timely : ∀ s ∈ secrets, ∀ c, cycle? origin now latencies tolerance s.pair = some c →
    (s.period : Int) ≤ c + 1
  mem_dead : ∀ s, s ∈ r.dead ↔ s ∈ secrets ∧
    ∃ c, cycle? origin now latencies tolerance s.pair = some c ∧ (s.period : Int) + 2 ≤ c
  mem_orphaned : ∀ s, s ∈ r.orphaned ↔ s ∈ secrets ∧ latencies[s.pair.transport]? = none
  /-- Derived are the periods of empty places after some earlier secret. -/
  mem_created : ∀ x, x ∈ r.created ↔
    x = .ofChain suite origin x.pair x.period ∧
    (∃ latency current, ∃ turn : Turn, latencies[x.pair.transport]? = some latency ∧
      Schedule.periodAt (origin x.pair).epoch (Schedule.interval latency tolerance) now =
        some current ∧ turn.period current = some x.period) ∧
    (∃ s ∈ secrets, s.pair = x.pair ∧ s.period < x.period) ∧ ∀ s ∈ secrets, s.id ≠ x.id
  get_held : ∀ (pair : Pair) turn x, ((r.held[pair]?).bind (·.get turn) = some x ↔
    x.pair = pair ∧ (x ∈ secrets ∨ x ∈ r.created) ∧
      ∃ c, cycle? origin now latencies tolerance pair = some c ∧ (x.period : Int) = c + turn.offset)
  held_ne_vacant : ∀ (pair : Pair) (trio : Trio), r.held[pair]? = some trio → ¬ trio.Vacant

namespace Orderly

variable (orderly : Orderly origin now latencies tolerance suite secrets)
include orderly

theorem allOf_sources (timely : Timely now latencies tolerance secrets) {pair : Pair}
    (known : latencies[pair.transport]? ≠ none) :
    AllOf suite origin pair (sources now latencies tolerance secrets pair) := by
  intro s mem
  obtain ⟨mem, own⟩ := (orderly.linked.mem_sources timely known).1 mem
  exact ⟨orderly.genuine s mem, own⟩

/-- What is derived for a pair, in terms of all its secrets. -/
theorem mem_derived (timely : Timely now latencies tolerance secrets) {pair : Pair} {latency : Nat}
    (known : latencies[pair.transport]? = some latency) (any : ∃ s ∈ secrets, s.pair = pair)
    {x : PeriodSecret} :
    x ∈ (filling suite now latencies tolerance secrets pair latency).2 ↔
      x = .ofChain suite origin pair x.period ∧
      (∃ current, ∃ turn : Turn, Schedule.periodAt (origin pair).epoch
        (Schedule.interval latency tolerance) now = some current ∧
          turn.period current = some x.period) ∧
      (∃ s ∈ secrets, s.pair = pair ∧ s.period < x.period) ∧
      ∀ s ∈ secrets, s.id ≠ ⟨pair, x.period⟩ := by
  have ne : latencies[pair.transport]? ≠ none := by simp [known]
  have mem_sources {s : PeriodSecret} := orderly.linked.mem_sources timely ne (s := s)
  obtain ⟨s₀, mem₀, own₀⟩ := any
  have pos := orderly.pos s₀ mem₀ latency (by rw [own₀, known])
  have le_top := (orderly.le_top s₀ mem₀ latency · (by rw [own₀, known]))
  have cycle (c : Int) : cycle? origin now latencies tolerance pair = some c ↔
      Schedule.cycle (origin pair).epoch (Schedule.interval latency tolerance) now = c := by
    simp [cycle?, known]
  -- A place is empty if no secret has the period that belongs there.
  have empty_iff {current period : Nat} {turn : Turn}
      (at_now : Schedule.periodAt (origin pair).epoch (Schedule.interval latency tolerance) now =
        some current) (target : turn.period current = some period) :
      (liveTrio now latencies tolerance secrets pair).get turn = none ↔
        ∀ s ∈ secrets, s.id ≠ ⟨pair, period⟩ := by
    have stands := Turn.eq_add_offset_of_period target
    obtain ⟨-, current_eq⟩ := (Schedule.periodAt_eq_some_iff pos).1 at_now
    rw [Option.eq_none_iff_forall_ne_some]
    constructor
    · intro empty s mem same
      obtain ⟨own, same⟩ := PeriodId.mk.inj same
      refine empty s (orderly.linked.get_liveTrio.2 ⟨mem, own, (orderly.stage?_eq_live_iff mem).2 ?_⟩)
      rw [show s.pair = pair from own]
      exact ⟨_, (cycle _).2 rfl, by omega⟩
    · intro nobody s there
      obtain ⟨mem, rfl, live⟩ := orderly.linked.get_liveTrio.1 there
      obtain ⟨c, hc, hs⟩ := (orderly.stage?_eq_live_iff mem).1 live
      rw [cycle] at hc
      have : s.period = period := by omega
      exact nobody s mem (this ▸ rfl)
  rw [filling, mem_fill_snd (orderly.allOf_sources timely ne)
    (List.ne_nil_of_mem (mem_sources.2 ⟨mem₀, own₀⟩)) (own₀ ▸ le_top)]
  constructor
  · rintro ⟨current, at_now, turn, empty, period, target, ⟨s, mem, lt⟩, rfl⟩
    obtain ⟨mem, own⟩ := mem_sources.1 mem
    exact ⟨rfl, ⟨current, turn, at_now, target⟩, ⟨s, mem, own, lt⟩,
      (empty_iff at_now target).1 empty⟩
  · rintro ⟨eq, ⟨current, turn, at_now, target⟩, ⟨s, mem, own, lt⟩, nobody⟩
    exact ⟨current, at_now, turn, (empty_iff at_now target).2 nobody, x.period, target,
      ⟨s, mem_sources.2 ⟨mem, own⟩, lt⟩, eq⟩

/-- A live secret stands in its place of the filled trio, and so does a derived one. -/
theorem get_filling (timely : Timely now latencies tolerance secrets) {pair : Pair} {latency : Nat}
    (known : latencies[pair.transport]? = some latency) (any : ∃ s ∈ secrets, s.pair = pair)
    {turn : Turn} {x : PeriodSecret} :
    (filling suite now latencies tolerance secrets pair latency).1.get turn = some x ↔
      (liveTrio now latencies tolerance secrets pair).get turn = some x ∨
        x ∈ (filling suite now latencies tolerance secrets pair latency).2 ∧
          (x.period : Int) =
            Schedule.cycle (origin pair).epoch (Schedule.interval latency tolerance) now +
              turn.offset := by
  obtain ⟨s, mem, rfl⟩ := any
  have ne : latencies[s.pair.transport]? ≠ none := by simp [known]
  exact get_fill (orderly.allOf_sources timely ne)
    (List.ne_nil_of_mem ((orderly.linked.mem_sources timely ne).2 ⟨mem, rfl⟩))
    (orderly.le_top s mem latency · known) (orderly.pos s mem latency known)

theorem mem_created (timely : Timely now latencies tolerance secrets) {x : PeriodSecret} :
    x ∈ (filled suite now latencies tolerance secrets).values.flatMap (·.2) ↔
      x = .ofChain suite origin x.pair x.period ∧
      (∃ latency current, ∃ turn : Turn, latencies[x.pair.transport]? = some latency ∧
        Schedule.periodAt (origin x.pair).epoch (Schedule.interval latency tolerance) now =
          some current ∧ turn.period current = some x.period) ∧
      (∃ s ∈ secrets, s.pair = x.pair ∧ s.period < x.period) ∧ ∀ s ∈ secrets, s.id ≠ x.id := by
  rw [List.mem_flatMap]
  constructor
  · rintro ⟨f, mem, derived⟩
    obtain ⟨pair, at_pair⟩ := mem_values.1 mem
    obtain ⟨latency, known, any, rfl⟩ := (filled_eq_some_iff timely).1 at_pair
    obtain ⟨eq, ⟨current, turn, at_now, target⟩, earlier, nobody⟩ :=
      (orderly.mem_derived timely known any).1 derived
    have own : x.pair = pair := by rw [eq]; rfl
    subst own
    exact ⟨eq, ⟨latency, current, turn, known, at_now, target⟩, earlier, nobody⟩
  · rintro ⟨eq, ⟨latency, current, turn, known, at_now, target⟩, ⟨s, mem, own, lt⟩, nobody⟩
    have any : ∃ s ∈ secrets, s.pair = x.pair := ⟨s, mem, own⟩
    exact ⟨_, mem_values.2 ⟨x.pair, (filled_eq_some_iff timely).2 ⟨latency, known, any, rfl⟩⟩,
      (orderly.mem_derived timely known any).2
        ⟨eq, ⟨current, turn, at_now, target⟩, ⟨s, mem, own, lt⟩, nobody⟩⟩

/-- What is held of genuine secrets: every secret in its place. -/
theorem get_held (timely : Timely now latencies tolerance secrets) {pair : Pair} {turn : Turn}
    {x : PeriodSecret} :
    (((((filled suite now latencies tolerance secrets).filter fun _ f => ¬ f.1.Vacant).map
        fun _ f => f.1)[pair]?).bind (·.get turn) = some x) ↔
      x.pair = pair ∧
        (x ∈ secrets ∨ x ∈ (filled suite now latencies tolerance secrets).values.flatMap (·.2)) ∧
        ∃ c, cycle? origin now latencies tolerance pair = some c ∧
          (x.period : Int) = c + turn.offset := by
  rw [get_held_iff timely, orderly.mem_created timely]
  constructor
  · rintro ⟨latency, known, any, there⟩
    rcases (orderly.get_filling timely known any).1 there with there | ⟨derived, stands⟩
    · obtain ⟨mem, rfl, live⟩ := orderly.linked.get_liveTrio.1 there
      exact ⟨rfl, .inl mem, (orderly.stage?_eq_live_iff mem).1 live⟩
    · obtain ⟨eq, ⟨current, turn', at_now, target⟩, earlier, nobody⟩ :=
        (orderly.mem_derived timely known any).1 derived
      have own : x.pair = pair := by rw [eq]; rfl
      subst own
      exact ⟨rfl, .inr ⟨eq, ⟨latency, current, turn', known, at_now, target⟩, earlier, nobody⟩,
        _, by simp [cycle?, known], stands⟩
  · rintro ⟨rfl, mem | ⟨eq, ⟨latency, current, turn', known, at_now, target⟩, earlier, nobody⟩,
      c, hc, stands⟩
    · cases known : latencies[x.pair.transport]? with
      | none => simp [cycle?, known] at hc
      | some latency =>
        have live := (orderly.stage?_eq_live_iff mem).2 ⟨c, hc, stands⟩
        exact ⟨latency, rfl, ⟨x, mem, rfl⟩, (orderly.get_filling timely known ⟨x, mem, rfl⟩).2
          (.inl (orderly.linked.get_liveTrio.2 ⟨mem, rfl, live⟩))⟩
    · obtain ⟨s, mem, own, lt⟩ := earlier
      refine ⟨latency, known, ⟨s, mem, own⟩,
        (orderly.get_filling timely known ⟨s, mem, own⟩).2 (.inr ⟨?_, ?_⟩)⟩
      · exact (orderly.mem_derived timely known ⟨s, mem, own⟩).2
          ⟨eq, ⟨current, turn', at_now, target⟩, ⟨s, mem, own, lt⟩, nobody⟩
      · simp only [cycle?, known, Option.map_some, Option.some.injEq] at hc
        rw [hc, stands]

theorem planned {r : Rollover} (h : plan suite now latencies tolerance secrets = .ok r) :
    Planned suite origin now latencies tolerance secrets r := by
  obtain ⟨timely, rfl⟩ := plan_eq_ok h
  refine ⟨?_, ?_, ?_, fun x => orderly.mem_created timely,
    fun pair turn x => orderly.get_held timely, ?_⟩
  · intro s mem c hc
    by_contra late
    exact timely s mem ((orderly.stage?_eq_notYetCreated_iff mem).2 ⟨c, hc, by omega⟩)
  · intro s
    simp only [deadOf, List.mem_filter, decide_eq_true_eq]
    exact and_congr_right orderly.stage?_eq_dead_iff
  · intro s
    simp [stage?_eq_none_iff]
  · intro pair trio there
    rw [ExtTreeMap.getElem?_map, ExtTreeMap.getElem?_filter'] at there
    simp only [Option.map_eq_some_iff, Option.filter_eq_some_iff] at there
    obtain ⟨f, ⟨-, ne⟩, rfl⟩ := there
    simpa using ne

end Orderly

/-! ## No secrets -/

theorem plan_nil : plan suite now latencies tolerance [] = .ok .empty := rfl

theorem retired_summary_empty : empty.summary.retired = [] := by
  simp [summary, sortIds, retired, empty]

end SealedStream.Rollover
