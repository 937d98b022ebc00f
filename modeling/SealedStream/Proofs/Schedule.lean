import Mathlib.Data.Int.Order.Basic
import Mathlib.Tactic.Ring
import SealedStream.Rotation.Schedule

/-!
# Where a period stands

The stage of a secret is found by comparing the clock with four times, the current period by one
division. Both count the intervals that have passed since the epoch, and so they agree, also before
the epoch.

They do so as far as the times can be reckoned. Those of a secret that is created always can, those of
one that is to be created in the far future need not.

## Main definitions

* `Schedule.cycle` — the current period as an integer, which is at most zero before the epoch.
* `Schedule.Stage.Agrees` — the stage of a period is the one that its distance to the current period
  calls for.
* `Schedule.Fits` — the times of a secret can be reckoned.

## Main statements

* `Schedule.stageAt_eq_dead_iff`, `Schedule.stageAt_eq_live_iff`,
  `Schedule.stageAt_eq_notYetCreated_iff` — the stage of a period from its distance to the cycle.
* `Schedule.lifespan_within`, `Schedule.fits_of_created` — how far the times of a secret reach, once it is
  created.
* `Schedule.stages_agree` — the stages of all periods that can be reckoned agree with the current period.
-/

namespace SealedStream

/-- How far the period in a place is from the current one. -/
def Turn.offset : Turn → Int
  | .old => -1
  | .current => 0
  | .new => 1

theorem Turn.offset_injective : Function.Injective Turn.offset := by
  intro a b h
  cases a <;> cases b <;> first | rfl | cases h

theorem Turn.offset_near (turn : Turn) : -1 ≤ turn.offset ∧ turn.offset ≤ 1 := by
  cases turn <;> decide

/-- Below the greatest count, the new place has a period like the other two. -/
theorem Turn.exists_offset {d : Int} (ge : -1 ≤ d) (le : d ≤ 1) : ∃ turn : Turn, turn.offset = d := by
  obtain rfl | rfl | rfl : d = -1 ∨ d = 0 ∨ d = 1 := by omega
  · exact ⟨.old, rfl⟩
  · exact ⟨.current, rfl⟩
  · exact ⟨.new, rfl⟩

theorem Turn.period_eq_some_iff {current period : Nat} {turn : Turn} (room : current < Count.top) :
    turn.period current = some period ↔ (period : Int) = current + turn.offset := by
  cases turn with
  | old => cases current <;> simp [Turn.period, Count.pred?, Turn.offset]; all_goals omega
  | current => simp only [Turn.period, Turn.offset, Option.some.injEq]; omega
  | new => simp only [Turn.period, Count.succ?, if_pos room, Turn.offset, Option.some.injEq]; omega

theorem Turn.eq_add_offset_of_period {current period : Nat} {turn : Turn}
    (h : turn.period current = some period) : (period : Int) = current + turn.offset := by
  cases turn with
  | old => cases current <;> simp_all [Turn.period, Count.pred?, Turn.offset]
  | current => simp_all [Turn.period, Turn.offset]
  | new =>
    simp only [Turn.period, Count.succ?, Option.ite_none_right_eq_some, Option.some.injEq] at h
    simp [Turn.offset, ← h.2]

theorem Turn.le_top_of_period {current period : Nat} {turn : Turn} (le_top : current ≤ Count.top)
    (h : turn.period current = some period) : period ≤ Count.top := by
  have stands := Turn.eq_add_offset_of_period h
  cases turn with
  | old | current => simp only [Turn.offset] at stands; omega
  | new =>
    simp only [Turn.period, Count.succ?, Option.ite_none_right_eq_some, Option.some.injEq] at h
    omega

namespace Schedule

/-- The current period, counted on to zero and below before the epoch. -/
def cycle (epoch interval now : Nat) : Int := ((now : Int) - epoch) / interval + 1

variable {epoch interval now period : Nat}

theorem add_mul_le_iff (pos : 0 < interval) (k : Int) :
    (epoch : Int) + interval * k ≤ now ↔ k + 1 ≤ cycle epoch interval now := by
  have step : k ≤ ((now : Int) - epoch) / interval ↔ k * interval ≤ (now : Int) - epoch :=
    Int.le_ediv_iff_mul_le (by omega)
  rw [mul_comm] at step
  unfold cycle
  omega

theorem cycle_mono (pos : 0 < interval) {later : Nat} (le : now ≤ later) :
    cycle epoch interval now ≤ cycle epoch interval later := by
  have step : ((now : Int) - epoch) / interval ≤ ((later : Int) - epoch) / interval :=
    Int.ediv_le_ediv (by omega) (by omega)
  unfold cycle
  omega

/-- From the epoch on, shorter periods make the current one a later one. -/
theorem cycle_anti {longer : Nat} (pos : 0 < interval) (le : interval ≤ longer) (after : epoch ≤ now) :
    cycle epoch longer now ≤ cycle epoch interval now := by
  obtain ⟨passed, rfl⟩ := Nat.exists_eq_add_of_le after
  have shorter : passed / longer ≤ passed / interval := Nat.div_le_div_left le pos
  simp only [cycle, Nat.cast_add, add_sub_cancel_left]
  omega

theorem interval_mono {latency latency' tolerance : Nat} (le : latency ≤ latency') :
    Schedule.interval latency tolerance ≤ Schedule.interval latency' tolerance := by
  simp only [Schedule.interval, Count.plus]
  omega

theorem cycle_pos_iff (pos : 0 < interval) : 0 < cycle epoch interval now ↔ epoch ≤ now := by
  have := @add_mul_le_iff epoch interval now pos 0
  omega

theorem periodAt_eq_some_iff {current : Nat} (pos : 0 < interval) :
    periodAt epoch interval now = some current ↔
      epoch ≤ now ∧ (current : Int) = cycle epoch interval now := by
  have ne : interval ≠ 0 := by omega
  by_cases early : now < epoch
  · simp only [periodAt, early, true_or, if_true, reduceCtorEq, false_iff]
    omega
  · have sub : ((now - epoch : Nat) : Int) = (now : Int) - epoch := by omega
    simp only [periodAt, early, ne, or_self, if_false, Option.some.injEq, cycle, ← sub]
    omega

theorem exists_periodAt (pos : 0 < interval) (started : 0 < cycle epoch interval now) :
    ∃ current : Nat, periodAt epoch interval now = some current ∧
      (current : Int) = cycle epoch interval now := by
  obtain ⟨current, eq⟩ := Int.eq_ofNat_of_zero_le started.le
  exact ⟨current, (periodAt_eq_some_iff pos).2 ⟨(cycle_pos_iff pos).1 started, eq.symm⟩, eq.symm⟩

theorem of_periodAt {current : Nat} (h : periodAt epoch interval now = some current) :
    epoch ≤ now ∧ current = (now - epoch) / interval + 1 := by
  unfold periodAt at h
  split at h
  · cases h
  · rename_i after
    cases h
    exact ⟨by omega, rfl⟩

theorem pos_of_periodAt {current : Nat} (h : periodAt epoch interval now = some current) :
    0 < current := by
  rw [(of_periodAt h).2]
  exact Nat.succ_pos _

theorem interval_pos_of_periodAt {current : Nat} (h : periodAt epoch interval now = some current) :
    0 < interval := by
  unfold periodAt at h
  grind

theorem coe_eq_cycle_of_periodAt {current : Nat} (h : periodAt epoch interval now = some current) :
    (current : Int) = cycle epoch interval now :=
  ((periodAt_eq_some_iff (interval_pos_of_periodAt h)).1 h).2

/-- Within one interval, the current period moves on by one at most. -/
theorem le_succ_of_periodAt {earlier current before : Nat}
    (at_now : periodAt epoch interval now = some current)
    (at_earlier : periodAt epoch interval earlier = some before)
    (near : now ≤ earlier + interval) : current ≤ before + 1 := by
  have pos := interval_pos_of_periodAt at_now
  obtain ⟨-, rfl⟩ := of_periodAt at_now
  obtain ⟨-, rfl⟩ := of_periodAt at_earlier
  have le : (now - epoch) / interval ≤ (earlier - epoch + interval) / interval :=
    Nat.div_le_div_right (by omega)
  rw [Nat.add_div_right _ pos] at le
  omega

/-- The stage of a period: the times at which it changes are compared with the clock from the last
to the first. -/
theorem stageAt_lifespan (pos : 0 < interval) :
    (lifespan epoch interval period).stageAt now =
      if (period : Int) + 2 ≤ cycle epoch interval now then .dead
      else if (period : Int) + 1 ≤ cycle epoch interval now then .live .old
      else if (period : Int) ≤ cycle epoch interval now then .live .current
      else if (period : Int) ≤ cycle epoch interval now + 1 then .live .new
      else .notYetCreated := by
  have destroyed := @add_mul_le_iff epoch interval now pos (period + 1)
  have deactivated := @add_mul_le_iff epoch interval now pos period
  have activated := @add_mul_le_iff epoch interval now pos (period - 1)
  have created := @add_mul_le_iff epoch interval now pos (period - 2)
  simp only [Lifespan.stageAt, lifespan]
  refine if_congr ?_ rfl (if_congr ?_ rfl (if_congr ?_ rfl (if_congr ?_ rfl rfl)))
  · rw [show (epoch : Int) + interval * (period - 2) + interval + interval + interval =
      epoch + interval * (period + 1) by ring, destroyed]
    omega
  · rw [show (epoch : Int) + interval * (period - 2) + interval + interval =
      epoch + interval * period by ring, deactivated]
  · rw [show (epoch : Int) + interval * (period - 2) + interval =
      epoch + interval * (period - 1) by ring, activated]
    omega
  · rw [created]
    omega

theorem stageAt_eq_dead_iff (pos : 0 < interval) :
    (lifespan epoch interval period).stageAt now = .dead ↔
      (period : Int) + 2 ≤ cycle epoch interval now := by
  rw [stageAt_lifespan pos]
  grind

theorem stageAt_eq_live_iff (pos : 0 < interval) {turn : Turn} :
    (lifespan epoch interval period).stageAt now = .live turn ↔
      (period : Int) = cycle epoch interval now + turn.offset := by
  rw [stageAt_lifespan pos]
  cases turn <;> grind [Turn.offset]

theorem stageAt_eq_notYetCreated_iff (pos : 0 < interval) :
    (lifespan epoch interval period).stageAt now = .notYetCreated ↔
      cycle epoch interval now + 2 ≤ period := by
  rw [stageAt_lifespan pos]
  grind

theorem lt_creation_of_notYetCreated {l : Lifespan} (early : l.stageAt now = .notYetCreated) :
    (now : Int) < l.creation := by
  unfold Lifespan.stageAt at early
  grind

theorem stageAt_eq_dead_iff_le {l : Lifespan} : l.stageAt now = .dead ↔ l.destruction ≤ now := by
  unfold Lifespan.stageAt
  grind

/-- A secret is only to be created before its creation. -/
theorem stageAt_eq_notYetCreated_iff_lt :
    (lifespan epoch interval period).stageAt now = .notYetCreated ↔
      (now : Int) < (lifespan epoch interval period).creation := by
  simp only [Lifespan.stageAt, lifespan]
  grind

/-- Where periods have no length, no secret is ever live. -/
theorem pos_of_live {turn : Turn} (live : (lifespan epoch interval period).stageAt now = .live turn) :
    0 < interval := by
  by_contra none
  obtain rfl : interval = 0 := by omega
  simp only [Lifespan.stageAt, lifespan] at live
  grind

theorem lt_destruction_of_live {l : Lifespan} {turn : Turn} (live : l.stageAt now = .live turn) :
    (now : Int) < l.destruction := by
  unfold Lifespan.stageAt at live
  grind

/-- Once a secret is created, its times reach two intervals before the epoch and three beyond the clock
at most: if epoch, interval and clock have 64 bits, the times are below 2 ^ 66 in size. Those of a secret
that is still to come have no such bound. -/
theorem lifespan_within (created : (lifespan epoch interval period).stageAt now ≠ .notYetCreated) :
    (epoch : Int) - 2 * interval ≤ (lifespan epoch interval period).creation ∧
      (lifespan epoch interval period).destruction ≤ now + 3 * interval := by
  rw [Ne, stageAt_eq_notYetCreated_iff_lt, not_lt] at created
  have counted : (0 : Int) ≤ interval * period := Int.mul_nonneg (by omega) (by omega)
  simp only [lifespan, mul_sub] at created ⊢
  omega

/-! ## The stages and the current period -/

/-- The stage is the one in which the secret of a period is when `current` is the current one. -/
structure Stage.Agrees (stage : Stage) (current period : Nat) : Prop where
  dead_iff : stage = .dead ↔ period + 2 ≤ current
  old_iff : stage = .live .old ↔ period + 1 = current
  current_iff : stage = .live .current ↔ period = current
  new_iff : stage = .live .new ↔ period = current + 1
  notYetCreated_iff : stage = .notYetCreated ↔ current + 2 ≤ period

theorem agrees_of_periodAt {current : Nat} (at_now : periodAt epoch interval now = some current) :
    ((lifespan epoch interval period).stageAt now).Agrees current period := by
  have pos := interval_pos_of_periodAt at_now
  have cycle := coe_eq_cycle_of_periodAt at_now
  constructor
  case dead_iff =>
    rw [stageAt_eq_dead_iff pos]
    omega
  case notYetCreated_iff =>
    rw [stageAt_eq_notYetCreated_iff pos]
    omega
  all_goals
    rw [stageAt_eq_live_iff pos, Turn.offset]
    omega

/-- The secret that a place asks for stands there. -/
theorem stageAt_of_period {current : Nat} {turn : Turn}
    (at_now : periodAt epoch interval now = some current)
    (target : turn.period current = some period) :
    (lifespan epoch interval period).stageAt now = .live turn := by
  rw [stageAt_eq_live_iff (interval_pos_of_periodAt at_now), ← coe_eq_cycle_of_periodAt at_now]
  exact Turn.eq_add_offset_of_period target

/-! ## As far as the times can be reckoned -/

/-- The times of the secret of a period can be reckoned in 128 bits. -/
def Fits (epoch interval period : Nat) : Prop :=
  (lifespan epoch interval period).destruction ≤ Count.signedTop

instance : Decidable (Fits epoch interval period) := inferInstanceAs (Decidable (_ ≤ _))

variable {o : Overflow}

/-- The times of a secret that is created can be reckoned. -/
theorem fits_of_created (short : interval ≤ Count.top) (reads : now ≤ Count.top)
    (created : (lifespan epoch interval period).stageAt now ≠ .notYetCreated) :
    Fits epoch interval period := by
  have within := (lifespan_within created).2
  unfold Count.top at short reads
  unfold Fits Count.signedTop
  omega

theorem lifespanOn_eq_some (short : interval ≤ Count.top) (fits : Fits epoch interval period) :
    lifespanOn o epoch interval period = some (lifespan epoch interval period) := by
  have counted : (0 : Int) ≤ interval * period := Int.mul_nonneg (by omega) (by omega)
  have shift : (interval : Int) * (period - 2) = interval * period - interval * 2 := mul_sub ..
  unfold Fits lifespan at fits
  unfold Count.top at short
  have in_range {n : Int} (ge : -36893488147419103230 ≤ n) (le : n ≤ Count.signedTop) :
      o.signed n = some n := Overflow.signed_eq_some (by unfold Count.signedTop; omega) le
  simp only [shift] at fits
  simp only [lifespanOn, lifespan, shift, Option.bind_eq_bind, Option.pure_def]
  rw [in_range, Option.bind_some, in_range, Option.bind_some, in_range, Option.bind_some, in_range,
    Option.bind_some, in_range, Option.bind_some]
  all_goals omega

theorem lifespanOn_stops_eq_none (late : ¬ Fits epoch interval period) :
    lifespanOn .stops epoch interval period = none := by
  have exact {n m : Int} (reckoned : Overflow.stops.signed n = some m) : m = n ∧ n ≤ Count.signedTop := by
    unfold Overflow.signed at reckoned
    split at reckoned
    · rename_i within
      exact ⟨(Option.some.inj reckoned).symm, within.2⟩
    · cases reckoned
  by_contra reckoned
  obtain ⟨span, reckoned⟩ := Option.ne_none_iff_exists'.1 reckoned
  simp only [lifespanOn, Option.bind_eq_bind, Option.bind_eq_some_iff] at reckoned
  obtain ⟨_, shift, _, creation, _, activation, _, deactivation, _, destruction, -⟩ := reckoned
  obtain ⟨rfl, -⟩ := exact shift
  obtain ⟨rfl, -⟩ := exact creation
  obtain ⟨rfl, -⟩ := exact activation
  obtain ⟨rfl, -⟩ := exact deactivation
  exact late (exact destruction).2

/-- Times of which the low bits are kept lie before the epoch, and so the secret passes for dead. -/
theorem exists_lifespanOn_wraps (after : epoch ≤ Count.top) (short : interval ≤ Count.top)
    (count : period ≤ Count.top) (late : ¬ Fits epoch interval period) :
    ∃ span, lifespanOn .wraps epoch interval period = some span ∧ span.stageAt now = .dead := by
  simp only [lifespanOn, Overflow.signed_wraps, Option.bind_eq_bind, Option.bind_some, Option.pure_def]
  refine ⟨_, rfl, stageAt_eq_dead_iff_le.2 ?_⟩
  have product : interval * period ≤ Count.top * Count.top := Nat.mul_le_mul short count
  have shift : (interval : Int) * (period - 2) = (interval * period : Nat) - interval * 2 := by
    rw [mul_sub, Nat.cast_mul]
  simp only [Fits, lifespan, shift] at late
  simp only [Int.bmod_add_bmod, Int.add_bmod_bmod]
  simp only [shift, Int.bmod_def]
  unfold Count.top at after short product
  unfold Count.signedTop at late
  omega

/-- The current period can be counted but for the last reading of the clock, if periods last a
millisecond and are counted from the beginning of time. -/
theorem periodOn_eq_some {current : Nat} (reads : now ≤ Count.top)
    (room : ¬ (epoch = 0 ∧ interval = 1 ∧ now = Count.top))
    (at_now : periodAt epoch interval now = some current) :
    periodOn o epoch interval now = some (some current) := by
  obtain ⟨after, rfl⟩ := of_periodAt at_now
  have pos := interval_pos_of_periodAt at_now
  have le : (now - epoch) / interval + 1 ≤ Count.top := by
    rcases Nat.lt_or_ge 1 interval with long | short
    · have half : (now - epoch) / interval ≤ (now - epoch) / 2 := Nat.div_le_div_left long (by decide)
      unfold Count.top at reads ⊢
      omega
    · obtain rfl : interval = 1 := by omega
      rw [Nat.div_one]
      omega
  simp only [periodOn, at_now, Overflow.count_eq_some le, Option.map_some]

/-- From the epoch on there is a current period that can be counted, but for one reading of the clock.
The stage of every secret whose times can be reckoned agrees with it, and the secret that a place asks
for is one of them and is live in this place only. All secrets whose times cannot be reckoned are still
to be created; the program stops at them, or else it takes them for dead. -/
theorem stages_agree (o : Overflow) (pos : 0 < interval) (started : epoch ≤ now)
    (short : interval ≤ Count.top) (reads : now ≤ Count.top) :
    (¬ (epoch = 0 ∧ interval = 1 ∧ now = Count.top) →
      ∃ current, periodOn o epoch interval now = some (some current) ∧
        (∀ period, Fits epoch interval period → ∃ span,
          lifespanOn o epoch interval period = some span ∧ (span.stageAt now).Agrees current period) ∧
        (∀ (turn : Turn) (period : Nat), turn.period current = some period → ∃ span,
          lifespanOn o epoch interval period = some span ∧
            ∀ place, span.stageAt now = .live place ↔ place = turn) ∧
        ∀ period ≤ Count.top, ¬ Fits epoch interval period → current + 2 ≤ period ∧
          match o with
          | .stops => lifespanOn .stops epoch interval period = none
          | .wraps => ∃ span,
            lifespanOn .wraps epoch interval period = some span ∧ span.stageAt now = .dead) ∧
    (epoch = 0 ∧ interval = 1 ∧ now = Count.top →
      match o with
      | .stops => periodOn .stops epoch interval now = none
      | .wraps => periodOn .wraps epoch interval now = some (some 0)) := by
  refine ⟨fun room => ?_, ?_⟩
  · obtain ⟨current, at_now, -⟩ := exists_periodAt pos ((cycle_pos_iff pos).2 started)
    refine ⟨current, periodOn_eq_some reads room at_now, fun period fits => ?_,
      fun turn period target => ?_, fun period count late => ⟨?_, ?_⟩⟩
    · exact ⟨_, lifespanOn_eq_some short fits, agrees_of_periodAt at_now⟩
    · have live := stageAt_of_period at_now target
      have fits := fits_of_created short reads (by rw [live]; exact nofun)
      refine ⟨_, lifespanOn_eq_some short fits, fun place => ?_⟩
      rw [live, Stage.live.injEq]
      exact eq_comm
    · refine (agrees_of_periodAt at_now).notYetCreated_iff.1 ?_
      by_contra created
      exact late (fits_of_created short reads created)
    · cases o with
      | stops => exact lifespanOn_stops_eq_none late
      | wraps => exact exists_lifespanOn_wraps (started.trans reads) short count late
  · rintro ⟨rfl, rfl, rfl⟩
    cases o <;> decide

/-- Just when period 2 becomes the current one of a very long interval, period 3 is the new one. The times
of the greatest period but one can be reckoned, those of the greatest cannot. -/
theorem stages_agree_on_change :
    let long := 9223372036854775808
    0 < long ∧ 5 ≤ 5 + long ∧ long ≤ Count.top ∧ 5 + long ≤ Count.top ∧
      periodOn .stops 5 long (4 + long) = some (some 1) ∧
      periodOn .stops 5 long (5 + long) = some (some 2) ∧
      (∃ span, lifespanOn .stops 5 long 3 = some span ∧
        ∀ place, span.stageAt (5 + long) = .live place ↔ place = .new) ∧
      (∃ span, lifespanOn .stops 5 long (Count.top - 1) = some span ∧
        (span.stageAt (5 + long)).Agrees 2 (Count.top - 1)) ∧
      lifespanOn .stops 5 long Count.top = none := by
  intro long
  obtain ⟨current, at_now, agrees, stands, late⟩ :=
    (stages_agree .stops (show 0 < long by decide) (show 5 ≤ 5 + long by decide) (by decide)
      (by decide)).1 (by decide)
  have second : periodOn .stops 5 long (5 + long) = some (some 2) := by decide
  obtain rfl : 2 = current := Option.some.inj (Option.some.inj (second.symm.trans at_now))
  exact ⟨by decide, by decide, by decide, by decide, by decide, second, stands .new 3 rfl,
    agrees (Count.top - 1) (by decide), (late Count.top le_rfl (by decide)).2⟩

/-- The greatest period of the longest interval is to be created in the far future, but the program stops at
its times or takes it for dead. -/
theorem not_stages_agree :
    periodAt 0 Count.top 0 = some 1 ∧ 1 + 2 ≤ Count.top ∧
      (lifespan 0 Count.top Count.top).stageAt 0 = .notYetCreated ∧
      lifespanOn .stops 0 Count.top Count.top = none ∧
      (lifespanOn .wraps 0 Count.top Count.top).map (·.stageAt 0) = some .dead := by
  decide

end Schedule

end SealedStream
