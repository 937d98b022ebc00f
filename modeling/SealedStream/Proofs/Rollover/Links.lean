import SealedStream.Proofs.Rollover.Plan

/-!
# What a rollover holds, whatever the keys

If all secrets of a pair have the same link, no two of them stand in one place. Then a rollover holds
every live secret and every derived one, and none else; what it retires are the others.

## Main statements

* `Rollover.Linked.of_held` — a held secret was given or derived, and it is live.
* `Rollover.Linked.held_of_live`, `Rollover.Linked.of_created` — what is held.
* `Rollover.Linked.mem_retired` — what is retired.
* `Rollover.Linked.holds_iff` — which identities are held.
-/

namespace SealedStream.Rollover

open Std

variable {suite : Suite} {origin : Pair → Origin} {now : Nat} {latencies : ExtTreeMap Transport Nat}
  {tolerance : Nat} {secrets : List PeriodSecret}

namespace Linked

variable (linked : Linked origin secrets)
include linked

section Filling

variable (timely : Timely now latencies tolerance secrets) {pair : Pair} {latency : Nat}
  (known : latencies[pair.transport]? = some latency) (any : ∃ s ∈ secrets, s.pair = pair)
include timely known any

variable (suite) in
/-- A pair's trio is filled with secrets of the pair's link, each derived for an empty place. -/
theorem filling_cases :
    filling suite now latencies tolerance secrets pair latency =
        (liveTrio now latencies tolerance secrets pair, []) ∨
      ∃ current created,
        Schedule.periodAt (origin pair).epoch (Schedule.interval latency tolerance) now =
          some current ∧
        filling suite now latencies tolerance secrets pair latency =
          (place now (Schedule.interval latency tolerance) ((origin pair).link pair) created
            (liveTrio now latencies tolerance secrets pair), created) ∧
        ∀ x ∈ created, x.link = (origin pair).link pair ∧
          ∃ turn, (liveTrio now latencies tolerance secrets pair).get turn = none ∧
            turn.period current = some x.period := by
  have ne : latencies[pair.transport]? ≠ none := by simp [known]
  have links : ∀ s ∈ sources now latencies tolerance secrets pair,
      s.link = (origin pair).link pair := by
    intro s mem
    obtain ⟨mem', rfl⟩ := (linked.mem_sources timely ne).1 mem
    exact linked.link s mem'
  obtain ⟨s, mem, own⟩ := any
  have nonempty := List.ne_nil_of_mem ((linked.mem_sources timely ne).2 ⟨mem, own⟩)
  rw [filling, fill_eq links nonempty]
  cases at_now : Schedule.periodAt (origin pair).epoch (Schedule.interval latency tolerance) now with
  | none => exact .inl rfl
  | some current =>
    refine .inr ⟨current, _, rfl, rfl, ?_⟩
    intro x mem
    obtain ⟨fresh, turn, missing, target⟩ := of_mem_deriveMissing mem
    exact ⟨congrArg PeriodSecret.link fresh, turn, Trio.mem_missing.1 missing, target⟩

omit linked timely any in
/-- The stage of a secret with the link of its pair. -/
theorem stage?_of_link {x : PeriodSecret} (link : x.link = (origin pair).link pair) :
    stage? now latencies tolerance x = some ((Schedule.lifespan (origin pair).epoch
      (Schedule.interval latency tolerance) x.period).stageAt now) := by
  have own : x.pair = pair := congrArg Link.toPair link
  rw [stage?_eq (own.symm ▸ link), own, known]
  rfl

theorem of_get_filling {turn : Turn} {x : PeriodSecret}
    (stands : (filling suite now latencies tolerance secrets pair latency).1.get turn = some x) :
    x.link = (origin pair).link pair ∧
      (x ∈ secrets ∨ x ∈ (filling suite now latencies tolerance secrets pair latency).2) ∧
      stage? now latencies tolerance x = some (.live turn) := by
  refine and_assoc.1 ⟨?_, stage?_of_get_filling known stands⟩
  have of_live (stands : (liveTrio now latencies tolerance secrets pair).get turn = some x) :
      x.link = (origin pair).link pair ∧ x ∈ secrets := by
    obtain ⟨mem, rfl, -⟩ := linked.get_liveTrio.1 stands
    exact ⟨linked.link x mem, mem⟩
  rcases linked.filling_cases suite timely known any with
    eq | ⟨current, created, at_now, eq, links⟩
  · rw [eq] at stands
    exact (of_live stands).imp_right .inl
  · rw [eq, place_eq_setAll] at stands
    rcases Trio.mem_of_get_setAll stands with ⟨mem, -⟩ | stands
    · rw [eq]
      exact ⟨(links x mem).1, .inr mem⟩
    · exact (of_live stands).imp_right .inl

theorem of_mem_filling {x : PeriodSecret}
    (mem : x ∈ (filling suite now latencies tolerance secrets pair latency).2) :
    x.link = (origin pair).link pair ∧ (∀ s ∈ secrets, s.id ≠ x.id) ∧ ∃ turn y,
      (filling suite now latencies tolerance secrets pair latency).1.get turn = some y ∧
        y.id = x.id := by
  rcases linked.filling_cases suite timely known any with
    eq | ⟨current, created, at_now, eq, links⟩
  · simp [eq] at mem
  rw [eq] at mem ⊢
  obtain ⟨link, turn, empty, target⟩ := links x mem
  have pos := Schedule.interval_pos_of_periodAt at_now
  have live := Schedule.stageAt_of_period at_now target
  refine ⟨link, ?_, turn, ?_⟩
  · intro s mem' same
    have own : x.pair = pair := congrArg Link.toPair link
    obtain ⟨same_pair, period⟩ := PeriodId.mk.inj same
    have pair_eq : s.pair = pair := (show s.pair = x.pair from same_pair).trans own
    have stage : stage? now latencies tolerance s = some (.live turn) := by
      rw [stage?_of_link known (pair_eq ▸ linked.link s mem'), period, live]
    rw [linked.get_liveTrio.2 ⟨mem', pair_eq, stage⟩] at empty
    cases empty
  · simp only [place_eq_setAll, Trio.get_setAll]
    cases found : created.reverse.find? fun s =>
        ((Schedule.lifespan ((origin pair).link pair).epoch (Schedule.interval latency tolerance)
          s.period).stageAt now).turn? = some turn with
    | none =>
      have := List.find?_eq_none.1 found x (List.mem_reverse.2 mem)
      simp [Origin.link, live, Schedule.Stage.turn?] at this
    | some y =>
      have there := List.find?_some found
      have within := List.mem_reverse.1 (List.mem_of_find?_eq_some found)
      refine ⟨y, rfl, ?_⟩
      have place := (Schedule.stageAt_eq_live_iff pos).1
        (Schedule.Stage.turn?_eq_some_iff.1 (by simpa using there))
      have own := (Schedule.stageAt_eq_live_iff pos).1 live
      simp only [Origin.link] at place
      rw [PeriodSecret.id, PeriodSecret.id, (links y within).1, link]
      congr 1
      omega

end Filling

/-! ## The rollover -/

variable {r : Rollover} (plans : plan suite now latencies tolerance secrets = .ok r)
include plans

/-- A held secret has the link of its pair, was given or derived, and is live. -/
theorem of_held {pair : Pair} {turn : Turn} {x : PeriodSecret}
    (stands : (r.held[pair]?).bind (·.get turn) = some x) :
    x.link = (origin pair).link pair ∧ (x ∈ secrets ∨ x ∈ r.created) ∧
      stage? now latencies tolerance x = some (.live turn) := by
  obtain ⟨timely, rfl⟩ := plan_eq_ok plans
  obtain ⟨latency, known, any, stands⟩ := (get_held_iff timely).1 stands
  obtain ⟨link, mem, live⟩ := linked.of_get_filling timely known any stands
  refine ⟨link, mem.imp_right fun mem => List.mem_flatMap.2 ⟨_, ?_, mem⟩, live⟩
  exact mem_values.2 ⟨pair, (filled_eq_some_iff timely).2 ⟨latency, known, any, rfl⟩⟩

/-- A live secret is held. -/
theorem held_of_live {turn : Turn} {s : PeriodSecret} (mem : s ∈ secrets)
    (live : stage? now latencies tolerance s = some (.live turn)) :
    (r.held[s.pair]?).bind (·.get turn) = some s := by
  obtain ⟨timely, rfl⟩ := plan_eq_ok plans
  obtain ⟨latency, known, -⟩ := Option.map_eq_some_iff.1
    ((stage?_eq (linked.link s mem)).symm.trans live)
  exact (get_held_iff timely).2 ⟨latency, known, ⟨s, mem, rfl⟩,
    get_filling_of_get_liveTrio (linked.get_liveTrio.2 ⟨mem, rfl, live⟩)⟩

/-- A derived secret has the link of its pair and an identity that was not given, and a secret with
its identity is held. -/
theorem of_created {x : PeriodSecret} (mem : x ∈ r.created) :
    x.link = (origin x.pair).link x.pair ∧ (∀ s ∈ secrets, s.id ≠ x.id) ∧ ∃ turn y,
      (r.held[x.pair]?).bind (·.get turn) = some y ∧ y.id = x.id := by
  obtain ⟨timely, rfl⟩ := plan_eq_ok plans
  obtain ⟨f, there, mem⟩ := List.mem_flatMap.1 mem
  obtain ⟨pair, there⟩ := mem_values.1 there
  obtain ⟨latency, known, any, rfl⟩ := (filled_eq_some_iff timely).1 there
  obtain ⟨link, fresh, turn, y, stands, named⟩ := linked.of_mem_filling timely known any mem
  obtain rfl : x.pair = pair := congrArg Link.toPair link
  exact ⟨link, fresh, turn, y, (get_held_iff timely).2 ⟨latency, known, any, stands⟩, named⟩

/-- Retired are the secrets that are not live. -/
theorem mem_retired {s : PeriodSecret} (mem : s ∈ secrets) :
    s.id ∈ r.retired ↔ ∀ turn, stage? now latencies tolerance s ≠ some (.live turn) := by
  obtain ⟨timely, rfl⟩ := plan_eq_ok plans
  have only : (∃ t ∈ secrets, (stage? now latencies tolerance t = some .dead ∨
      stage? now latencies tolerance t = none) ∧ t.id = s.id) ↔
        stage? now latencies tolerance s = some .dead ∨ stage? now latencies tolerance s = none := by
    constructor
    · rintro ⟨t, mem', gone, same⟩
      exact linked.distinct t mem' s mem same ▸ gone
    · exact fun gone => ⟨s, mem, gone, rfl⟩
  have timely := timely s mem
  simp only [retired, deadOf, List.mem_map, List.mem_append, List.mem_filter, decide_eq_true_eq,
    ← and_or_left, and_assoc, only]
  cases stage : stage? now latencies tolerance s with
  | none => simp
  | some stage' => cases stage' <;> simp_all

/-- The identities held after a rollover are those that it was given and does not retire, and those
that it derives. -/
theorem holds_iff {id : PeriodId} :
    (∃ x ∈ r.held.values.flatMap Trio.secrets, x.id = id) ↔
      (∃ s ∈ secrets, s.id = id ∧ id ∉ r.retired) ∨ ∃ x ∈ r.created, x.id = id := by
  have mem_of_stands {pair : Pair} {turn : Turn} {x : PeriodSecret}
      (stands : (r.held[pair]?).bind (·.get turn) = some x) :
      x ∈ r.held.values.flatMap Trio.secrets := by
    obtain ⟨trio, there, stands⟩ := Option.bind_eq_some_iff.1 stands
    exact mem_heldSecrets.2 ⟨pair, trio, turn, there, stands⟩
  constructor
  · rintro ⟨x, mem, rfl⟩
    obtain ⟨pair, trio, turn, there, stands⟩ := mem_heldSecrets.1 mem
    replace stands : (r.held[pair]?).bind (·.get turn) = some x := by rw [there]; exact stands
    obtain ⟨-, given | created, live⟩ := linked.of_held plans stands
    · refine .inl ⟨x, given, rfl, fun retired => ?_⟩
      exact (linked.mem_retired plans given).1 retired turn live
    · exact .inr ⟨x, created, rfl⟩
  · rintro (⟨s, given, rfl, stays⟩ | ⟨x, created, rfl⟩)
    · rw [linked.mem_retired plans given, not_forall_not] at stays
      obtain ⟨turn, live⟩ := stays
      exact ⟨s, mem_of_stands (linked.held_of_live plans given live), rfl⟩
    · obtain ⟨-, -, turn, y, stands, named⟩ := linked.of_created plans created
      exact ⟨y, mem_of_stands stands, named⟩

end Linked

end SealedStream.Rollover
