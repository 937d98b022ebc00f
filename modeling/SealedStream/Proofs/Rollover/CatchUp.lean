import SealedStream.Proofs.Rollover.Supply

/-!
# Rollovers that were missed

A rollover at a later time holds the same whether or not there was one in between: a secret that was
derived then is the one that is derived now, and what died in the meantime is no longer needed, since
one that comes after it is still there.

## Main statements

* `Rollover.cuts_held` — what is held stands for all secrets, from the live periods on.
* `Rollover.plan_catches_up` — the next rollover makes up for those that were missed.
-/

namespace SealedStream.Rollover

open Std

variable {suite : Suite} {now later : Nat} {latencies : ExtTreeMap Transport Nat} {tolerance : Nat}
  {secrets : List PeriodSecret} {s x : PeriodSecret} {link : Link}

/-! ## Time goes by -/

section Later

variable (le : now ≤ later)
include le

theorem current?_mono {current : Nat} (at_now : current? now latencies tolerance link = some current) :
    ∃ current', current? later latencies tolerance link = some current' ∧ current ≤ current' := by
  obtain ⟨latency, known, at_now⟩ := Option.bind_eq_some_iff.1 at_now
  have pos := Schedule.interval_pos_of_periodAt at_now
  obtain ⟨after, cycle⟩ := (Schedule.periodAt_eq_some_iff pos).1 at_now
  have mono : Schedule.cycle link.epoch _ now ≤ Schedule.cycle link.epoch _ later :=
    Schedule.cycle_mono pos le
  have started := (Schedule.cycle_pos_iff pos).2 (after.trans le)
  obtain ⟨current', at_later, cycle'⟩ := Schedule.exists_periodAt pos started
  exact ⟨current', by rw [current?, known]; exact at_later, by omega⟩

theorem Bounded.earlier (bounded : Bounded later latencies tolerance secrets) :
    Bounded now latencies tolerance secrets := by
  intro s mem current at_now
  obtain ⟨current', at_later, le'⟩ := current?_mono le at_now
  exact le'.trans_lt (bounded s mem current' at_later)

theorem Early.earlier (early : Early later latencies tolerance s) : Early now latencies tolerance s := by
  obtain ⟨span, known, lt⟩ := early
  exact ⟨span, known, by omega⟩

end Later

/-- If some secret of a link is ever live and another one is dead, the epoch has come. -/
theorem exists_current_of_dead {turn : Turn} (link : s.link = x.link)
    (live : stage? later latencies tolerance x = some (.live turn))
    (dead : stage? now latencies tolerance s = some .dead) :
    ∃ current, current? now latencies tolerance x.link = some current := by
  simp only [stage?, lifespan?, Option.map_map, Option.map_eq_some_iff, Function.comp] at live dead
  rw [link] at dead
  obtain ⟨latency, known, live⟩ := live
  obtain ⟨_, known', dead⟩ := dead
  obtain rfl := Option.some.inj (known.symm.trans known')
  have pos := Schedule.pos_of_live live
  rw [Schedule.stageAt_eq_dead_iff pos] at dead
  obtain ⟨current, at_now, -⟩ := Schedule.exists_periodAt pos
    (show 0 < Schedule.cycle x.link.epoch _ now by omega)
  exact ⟨current, by rw [current?, known]; exact at_now⟩

/-! ## What is held stands for all secrets -/

section Held

variable (uniform : Uniform secrets) (bounded : Bounded now latencies tolerance secrets) {r : Rollover}
  (plans : plan suite now latencies tolerance secrets = .ok r) {again : List PeriodSecret}
  (same : ∀ x, x ∈ again ↔ x ∈ r.held.values.flatMap Trio.secrets)
include uniform bounded plans same

theorem mem_again : x ∈ again ↔ (x ∈ secrets ∨ Due suite now latencies tolerance secrets x) ∧
    ∃ turn, stage? now latencies tolerance x = some (.live turn) := by
  rw [same, uniform.mem_held plans, uniform.mem_created plans bounded]

theorem yields_of_mem_again (mem : x ∈ again) : Yields suite secrets x :=
  ((mem_again uniform bounded plans same).1 mem).1.elim .given Due.yields

/-- What was held once stands for all secrets, up to every period that is live later. -/
theorem cuts_held (le : now ≤ later) {turn : Turn}
    (live : stage? later latencies tolerance x = some (.live turn)) (mem : s ∈ secrets)
    (link : s.link = x.link) : Cuts suite secrets again x.pair x.period := by
  refine ⟨fun y => yields_of_mem_again uniform bounded plans same, fun t mem' own before => ?_⟩
  have link' : t.link = x.link :=
    (uniform.link t mem' s mem (own.trans (congrArg Link.toPair link.symm))).trans link
  cases stage : stage? now latencies tolerance t with
  | none =>
    have unknown := stage?_eq_none_iff.1 stage
    rw [own] at unknown
    rw [stage?_eq_none_iff.2 unknown] at live
    cases live
  | some stage' =>
    cases stage' with
    | notYetCreated => exact absurd stage ((plan_eq_ok plans).1 t mem')
    | live turn =>
      exact ⟨t, (mem_again uniform bounded plans same).2 ⟨.inl mem', turn, stage⟩, own, le_rfl, before⟩
    | dead =>
      obtain ⟨current, at_now⟩ := exists_current_of_dead link' live stage
      obtain ⟨current', at_later, le'⟩ := current?_mono le at_now
      have dead := (stage?_eq_dead_iff (link' ▸ at_now)).1 stage
      -- The secret before the current one comes after the dead one.
      obtain ⟨y, yields, link_y, place⟩ := Yields.exists_of_le suite uniform mem'
        (show t.period ≤ current - 1 by omega)
      have at_y : current? now latencies tolerance y.link = some current := by
        rw [link_y, link', at_now]
      have old : (y.period : Int) = current + Turn.old.offset := by
        simp only [Turn.offset]
        omega
      have bound := bounded s mem current (link ▸ at_now)
      have stands := (stage?_eq_live_iff at_later).1 live
      have near := turn.offset_near
      exact ⟨y, (mem_again uniform bounded plans same).2
        ⟨yields.mem_or_due at_y bound old, .old, (stage?_eq_live_iff at_y).2 old⟩,
        (congrArg Link.toPair link_y).trans own, by omega, by omega⟩

/-- Before the epoch nothing is derived and nothing dies, so all secrets that are live later were held
before. -/
theorem mem_again_iff_of_none (le : now ≤ later) {turn : Turn}
    (live : stage? later latencies tolerance x = some (.live turn))
    (none : current? later latencies tolerance x.link = none) : x ∈ again ↔ x ∈ secrets := by
  have early (current : Nat) : current? now latencies tolerance x.link ≠ some current := by
    intro at_now
    obtain ⟨current', at_later, -⟩ := current?_mono le at_now
    rw [none] at at_later
    cases at_later
  rw [mem_again uniform bounded plans same]
  constructor
  · rintro ⟨given | due, -⟩
    · exact given
    · obtain ⟨current, -, at_now, -⟩ := due.near
      exact absurd at_now (early current)
  · intro given
    refine ⟨.inl given, ?_⟩
    cases stage : stage? now latencies tolerance x with
    | none =>
      rw [stage?_eq_none_iff.2 (stage?_eq_none_iff.1 stage)] at live
      cases live
    | some stage' =>
      cases stage' with
      | notYetCreated => exact absurd stage ((plan_eq_ok plans).1 x given)
      | live turn' => exact ⟨turn', rfl⟩
      | dead =>
        obtain ⟨current, at_now⟩ := exists_current_of_dead rfl live stage
        exact absurd at_now (early current)

/-- Of the secrets that are live later, the same are given or due. -/
theorem mem_or_due_again_iff (le : now ≤ later) (bounded' : Bounded later latencies tolerance secrets)
    {turn : Turn} (live : stage? later latencies tolerance x = some (.live turn)) :
    (x ∈ again ∨ Due suite later latencies tolerance again x) ↔
      (x ∈ secrets ∨ Due suite later latencies tolerance secrets x) := by
  cases at_later : current? later latencies tolerance x.link with
  | none =>
    have not_due {secrets : List PeriodSecret} :
        ¬ Due suite later latencies tolerance secrets x := by
      rintro ⟨-, ⟨current, -, at_x, -⟩, -⟩
      rw [at_later] at at_x
      cases at_x
    rw [or_iff_left not_due, or_iff_left not_due]
    exact mem_again_iff_of_none uniform bounded plans same le live at_later
  | some current =>
    have yields_iff {s : PeriodSecret} (mem : s ∈ secrets) (link : s.link = x.link) :
        (x ∈ again ∨ Due suite later latencies tolerance again x) ↔
          (x ∈ secrets ∨ Due suite later latencies tolerance secrets x) := by
      have room := bounded' s mem current (link ▸ at_later)
      have stands := (stage?_eq_live_iff at_later).1 live
      have near := turn.offset_near
      rw [mem_or_due_iff at_later room live, mem_or_due_iff at_later room live]
      exact (cuts_held uniform bounded plans same le live mem link).yields_iff uniform (by omega)
    -- On either side, some given secret shows the link.
    constructor
    · intro there
      obtain ⟨y, mem, -, link, -⟩ := (there.elim .given Due.yields : Yields suite again x).exists_le
      obtain ⟨s, mem, -, link', -⟩ := (yields_of_mem_again uniform bounded plans same mem).exists_le
      exact (yields_iff mem (link'.trans link)).1 there
    · intro there
      obtain ⟨s, mem, -, link, -⟩ :=
        (there.elim .given Due.yields : Yields suite secrets x).exists_le
      exact (yields_iff mem link).2 there

end Held

/-! ## The next rollover -/

/-- Rollovers hold the same if they hold the same in every place. -/
theorem held_ext {now' : Nat} {secrets' : List PeriodSecret} {r r' : Rollover}
    (plans : plan suite now latencies tolerance secrets = .ok r)
    (plans' : plan suite now' latencies tolerance secrets' = .ok r')
    (slots : ∀ (pair : Pair) (turn : Turn),
      (r.held[pair]?).bind (·.get turn) = (r'.held[pair]?).bind (·.get turn)) :
    r.held = r'.held := by
  refine ExtTreeMap.ext_getElem? fun pair => ?_
  have slots := slots pair
  cases there : r.held[pair]? with
  | none =>
    cases there' : r'.held[pair]? with
    | none => rfl
    | some trio' =>
      obtain ⟨turn, x, stands⟩ := exists_get_of_held plans' there'
      rw [← slots, there] at stands
      cases stands
  | some trio =>
    cases there' : r'.held[pair]? with
    | none =>
      obtain ⟨turn, x, stands⟩ := exists_get_of_held plans there
      rw [slots, there'] at stands
      cases stands
    | some trio' =>
      simp only [there, there', Option.bind_some] at slots
      exact congrArg some (Trio.ext_get slots)

/-- The next rollover makes up for those that were missed: it holds the same as if there had been one
before, and it has nothing to do if no time has passed since. -/
theorem plan_catches_up (le : now ≤ later) (uniform : Uniform secrets)
    (bounded : Bounded later latencies tolerance secrets) {r : Rollover}
    (plans : plan suite now latencies tolerance secrets = .ok r) {again : List PeriodSecret}
    (same : ∀ x, x ∈ again ↔ x ∈ r.held.values.flatMap Trio.secrets) :
    ∃ direct twice, plan suite later latencies tolerance secrets = .ok direct ∧
      plan suite later latencies tolerance again = .ok twice ∧ direct.held = twice.held ∧
      (later = now → twice.Idle) := by
  have earlier := bounded.earlier le
  have yields {x : PeriodSecret} (mem : x ∈ again) : Yields suite secrets x :=
    yields_of_mem_again uniform earlier plans same mem
  have uniform' : Uniform again := Cuts.uniform uniform fun x => yields
  have bounded' : Bounded later latencies tolerance again := by
    intro x mem current at_later
    obtain ⟨s, mem', -, link, -⟩ := (yields mem).exists_le
    exact bounded s mem' current (link ▸ at_later)
  obtain ⟨direct, plans_direct⟩ : ∃ r, plan suite later latencies tolerance secrets = .ok r := by
    refine exists_plan fun s mem early => ?_
    exact (plan_eq_ok plans).1 s mem (stage?_eq_notYetCreated_iff_early.2 (early.earlier le))
  obtain ⟨twice, plans_twice⟩ : ∃ r, plan suite later latencies tolerance again = .ok r := by
    refine exists_plan fun x mem early => ?_
    obtain ⟨-, turn, live⟩ := (mem_again uniform earlier plans same).1 mem
    rw [stage?_eq_notYetCreated_iff_early.2 (early.earlier le)] at live
    cases live
  refine ⟨direct, twice, plans_direct, plans_twice, ?_, ?_⟩
  · refine held_ext plans_direct plans_twice fun pair turn => Option.ext fun x => ?_
    rw [uniform.get_held plans_direct, uniform'.get_held plans_twice,
      uniform.mem_created plans_direct bounded, uniform'.mem_created plans_twice bounded']
    refine and_congr_right fun _ => and_congr_left fun live => ?_
    exact (mem_or_due_again_iff uniform earlier plans same le bounded live).symm
  · rintro rfl
    have live {x : PeriodSecret} (mem : x ∈ again) :=
      ((mem_again uniform earlier plans same).1 mem).2
    refine ⟨List.eq_nil_iff_forall_not_mem.2 fun x created => ?_, ?_, ?_⟩
    · have due := (uniform'.mem_created plans_twice bounded').1 created
      obtain ⟨turn, live⟩ := due.live
      have there := (mem_or_due_again_iff uniform earlier plans same le bounded live).1 (.inr due)
      exact due.missing x ((mem_again uniform earlier plans same).2 ⟨there, turn, live⟩) rfl
    all_goals
      obtain ⟨-, rfl⟩ := plan_eq_ok plans_twice
      refine List.filter_eq_nil_iff.2 fun x mem => ?_
      obtain ⟨turn, live⟩ := live mem
      simp [live]

/-- At 35, one pair has a gap between its secrets and the epoch of the other one is still to come. By
95, all secrets that were held then have died. -/
theorem plan_catches_up_dormant :
    let a : Link := ⟨⟨1, "tcp"⟩, 0, .alice⟩
    let b : Link := ⟨⟨2, "tcp"⟩, 50, .bob⟩
    let secrets : List PeriodSecret := [.fresh a 1 .wiped, .fresh b 0 .wiped, .fresh a 4 .wiped]
    let latencies : ExtTreeMap Transport Nat := (∅ : ExtTreeMap Transport Nat).insert "tcp" 7
    ∃ r direct twice again, plan bare 35 latencies 3 secrets = .ok r ∧
      plan bare 95 latencies 3 secrets = .ok direct ∧
      plan bare 95 latencies 3 (r.held.values.flatMap Trio.secrets) = .ok twice ∧
      direct.held = twice.held ∧ direct.created.map (·.period) = [9, 10, 11, 4, 5, 6] ∧
      plan bare 35 latencies 3 (r.held.values.flatMap Trio.secrets) = .ok again ∧ again.Idle := by
  intro a b secrets latencies
  have uniform : Uniform secrets := ⟨by decide, by decide⟩
  obtain ⟨r, plans⟩ : ∃ r, plan bare 35 latencies 3 secrets = .ok r := exists_plan (by decide +kernel)
  obtain ⟨direct, twice, plans_direct, plans_twice, same, -⟩ := plan_catches_up
    (show 35 ≤ 95 by decide) uniform (bounded_of_lt (by decide)) plans fun _ => Iff.rfl
  obtain ⟨-, again, -, plans_again, -, idle⟩ := plan_catches_up le_rfl uniform
    (bounded_of_lt (by decide)) plans fun _ => Iff.rfl
  have created : (plan bare 95 latencies 3 secrets).toOption.map (·.created.map (·.period)) =
      some [9, 10, 11, 4, 5, 6] := by decide +kernel
  rw [plans_direct] at created
  exact ⟨r, direct, twice, again, plans, plans_direct, plans_twice, same, Option.some.inj created,
    plans_again, idle rfl⟩

end SealedStream.Rollover
