import SealedStream.Proofs.Station.Reliable
import SealedStream.Proofs.Station.Premature

/-!
# Keeping abreast of the clock

Latencies do not change, the clock does not go back, and nothing fails. Then a check of a running
keyring works out, and it leaves every pair with the secrets of the periods that are live at that time.
Until the next check they stay as they are. A pair that is enrolled in between starts with those that
are live at its enrollment.

## Main definitions

* `Station.livePeriods` — the periods that are live at a reading of the clock.
* `Station.Abreast` — every enrolled pair holds the periods that were live at the last check, or at its
  enrollment if that was later.

## Main statements

* `Station.Abreast.plans` — the clock is not blamed.
* `Station.Abreast.checked`, `Station.Abreast.enrolled` — what a check and an enrollment leave.
-/

namespace SealedStream

open Std SealedStream.Action

namespace Station

variable {suite : Suite} {origin : Pair → Origin} {latency : Transport → Nat} {tolerance now : Nat}

/-- What there is room for at some time, there is room for before. -/
theorem Ample.mono {allowed : Transport → Nat → Prop} {later : Nat}
    (ample : Ample origin tolerance allowed later) (le : now ≤ later) :
    Ample origin tolerance allowed now where
  pos := ample.pos
  roomy pair latency current allow at_now := by
    have pos := ample.pos _ _ allow
    obtain ⟨after, cycle⟩ := (Schedule.periodAt_eq_some_iff pos).1 at_now
    have mono : Schedule.cycle (origin pair).epoch _ now ≤ _ := Schedule.cycle_mono pos le
    obtain ⟨current', at_later, cycle'⟩ := Schedule.exists_periodAt pos
      (((Schedule.cycle_pos_iff pos).2 (after.trans le)))
    have := ample.roomy pair latency current' allow at_later
    omega

/-- The periods of a pair that are live at a reading of the clock, oldest first. -/
def livePeriods (origin : Pair → Origin) (latency : Transport → Nat) (tolerance : Nat) (pair : Pair)
    (time : Nat) : List (Option Nat) :=
  let current := (time - (origin pair).epoch) /
    Schedule.interval (latency pair.transport) tolerance + 1
  [some (current - 1), some current, some (current + 1)]

theorem livePeriods_of_periodAt {pair : Pair} {current : Nat}
    (at_now : Schedule.periodAt (origin pair).epoch
      (Schedule.interval (latency pair.transport) tolerance) now = some current) :
    livePeriods origin latency tolerance pair now =
      [some (current - 1), some current, some (current + 1)] := by
  obtain ⟨-, rfl⟩ := Schedule.of_periodAt at_now
  rfl

/-- The clock reads `now`, and the last check was at `mark`. Every pair that was enrolled holds the
periods that were live at that check, or at its enrollment if that was later. -/
structure Abreast (suite : Suite) (origin : Pair → Origin) (latency : Transport → Nat)
    (tolerance : Nat) (enrolled : Pair → Option Nat) (mark now : Nat) (c : Core) : Prop where
  sound : Sound suite origin (fun transport l => l = latency transport) c
  backed : Backed c
  smooth : c.Smooth
  tolerance_eq : c.tolerance = tolerance
  mark_le : mark ≤ now
  timely : ∀ pair time, enrolled pair = some time → (origin pair).epoch ≤ time ∧ time ≤ now
  held : ∀ pair, (c.held[pair]?).map Trio.periods =
    (enrolled pair).map fun time => livePeriods origin latency tolerance pair (max time mark)

theorem Effect.held_of_issue {s : Station} {pair : Pair} {report : Report} {c : Core}
    (effect : Effect suite now s (.issue pair) report c) : c.held = s.core.held := by
  cases effect with
  | kept | issued => rfl
  | rotating _ _ _ rolls | rotated _ _ _ rolls => simp at rolls

theorem Effect.held_of_recognize {s : Station} {bytes : Bytes} {report : Report} {c : Core}
    (effect : Effect suite now s (.recognize bytes) report c) : c.held = s.core.held := by
  cases effect with
  | kept | recognized => rfl
  | rotating _ _ _ rolls | rotated _ _ _ rolls => simp at rolls

namespace Abreast

variable {enrolled : Pair → Option Nat} {mark : Nat} {c : Core}

/-- Time goes by. -/
theorem later (abreast : Abreast suite origin latency tolerance enrolled mark now c) {later : Nat}
    (le : now ≤ later) : Abreast suite origin latency tolerance enrolled mark later c where
  sound := abreast.sound
  backed := abreast.backed
  smooth := abreast.smooth
  tolerance_eq := abreast.tolerance_eq
  mark_le := abreast.mark_le.trans le
  timely pair time enrolls := (abreast.timely pair time enrolls).imp_right fun before => before.trans le
  held := abreast.held

/-- An act that leaves the held secrets alone. -/
theorem of_held {s : Station} {act : Act} {report : Report}
    (abreast : Abreast suite origin latency tolerance enrolled mark now s.core)
    (ample : Ample origin tolerance (fun transport l => l = latency transport) now)
    (effect : Effect suite now s act report c)
    (follows : act.Follows origin fun transport l => l = latency transport)
    (same : c.held = s.core.held) :
    Abreast suite origin latency tolerance enrolled mark now c where
  sound := abreast.sound.effect follows (abreast.tolerance_eq ▸ ample.fits) effect
  backed := abreast.backed.effect abreast.sound follows (abreast.tolerance_eq ▸ ample) effect
  smooth := abreast.smooth.effect effect
  tolerance_eq := effect.tolerance_eq.trans abreast.tolerance_eq
  mark_le := abreast.mark_le
  timely := abreast.timely
  held := by
    rw [same]
    exact abreast.held

/-- A link is enrolled, from its epoch on. -/
theorem enroll {s : Station} {link : Link} {l : Nat} {handshake : Key}
    (abreast : Abreast suite origin latency tolerance enrolled mark s.post.agenda.now s.core)
    (ample : Ample origin tolerance (fun transport l => l = latency transport) s.post.agenda.now)
    (follows : (Act.enroll link l handshake).Follows origin fun transport l => l = latency transport)
    (after : link.epoch ≤ s.post.agenda.now) :
    Abreast suite origin latency tolerance
      (fun pair => if pair = link.toPair then some s.post.agenda.now else enrolled pair) mark
      s.post.agenda.now ((Act.enroll link l handshake).perform suite s).2.core := by
  obtain ⟨link_eq, -, rfl⟩ := id follows
  have epoch : link.epoch = (origin link.toPair).epoch := by rw [link_eq]; rfl
  have pos := ample.pos link.transport _ rfl
  obtain ⟨current, at_now, -⟩ := Schedule.exists_periodAt pos ((Schedule.cycle_pos_iff pos).2 after)
  rw [← abreast.tolerance_eq] at at_now
  have done : ((Act.enroll link (latency link.transport) handshake).perform suite s).1 = .done := by
    simp only [Act.perform, settle, enroll_of_smooth (ends_toExcept ..) abreast.smooth at_now]
  have effect : Effect suite _ s _ _ _ := effect_act (.enroll link (latency link.transport) handshake) s
  rw [done] at effect
  refine ⟨abreast.sound.effect follows (abreast.tolerance_eq ▸ ample.fits) effect,
    abreast.backed.effect abreast.sound follows (abreast.tolerance_eq ▸ ample) effect,
    abreast.smooth.effect effect, effect.tolerance_eq.trans abreast.tolerance_eq, abreast.mark_le,
    fun pair time enrolls => ?_, fun pair => ?_⟩
  · split at enrolls
    · rename_i own
      obtain rfl := Option.some.inj enrolls
      exact ⟨own ▸ epoch ▸ after, le_rfl⟩
    · exact abreast.timely pair time enrolls
  · generalize ((Act.enroll link (latency link.transport) handshake).perform suite s).2.core = c at effect
    cases effect with
    | rotated quiet plans offered rolls => simp at rolls
    | @enrolled _ _ current' _ rows _ _ at_now' reached =>
      have pos' := Schedule.pos_of_periodAt at_now'
      have genuine := abreast.sound.genuineRows_enrolled follows pos' (.inr reached)
      rw [abreast.tolerance_eq, epoch] at at_now'
      dsimp only
      by_cases own : pair = link.toPair
      · subst own
        rw [ExtTreeMap.getElem?_insert_self, if_pos rfl, Option.map_some, Option.map_some,
          liveSecrets_of_follows follows pos', periods_trioOf genuine, max_eq_left abreast.mark_le,
          livePeriods_of_periodAt at_now']
      · simp only [ExtTreeMap.getElem?_insert, LawfulEqCmp.compare_eq_iff_eq, Ne.symm own, own, if_false]
        exact abreast.held pair

/-- A pair that was enrolled has a current period ever since. -/
theorem exists_periodAt
    (abreast : Abreast suite origin latency tolerance enrolled mark now c)
    (ample : Ample origin tolerance (fun transport l => l = latency transport) now) {pair : Pair}
    {time : Nat} (enrolls : enrolled pair = some time) {later : Nat} (le : time ≤ later) :
    ∃ current, Schedule.periodAt (origin pair).epoch
      (Schedule.interval (latency pair.transport) tolerance) later = some current := by
  have pos := ample.pos pair.transport _ rfl
  have after := (abreast.timely pair time enrolls).1.trans le
  obtain ⟨current, at_later, -⟩ :=
    Schedule.exists_periodAt pos ((Schedule.cycle_pos_iff pos).2 after)
  exact ⟨current, at_later⟩

/-- The clock is not blamed. -/
theorem plans (abreast : Abreast suite origin latency tolerance enrolled mark now c)
    (ample : Ample origin tolerance (fun transport l => l = latency transport) now) :
    ∃ r, Rollover.plan suite now c.latencies c.tolerance c.secrets = .ok r := by
  have fits := abreast.tolerance_eq ▸ ample.fits
  refine (fits.orderly abreast.sound.latencies abreast.sound.genuine_held
    abreast.sound.distinct_held).exists_plan fun x mem cycle hc => ?_
  obtain ⟨trio, there, stands⟩ : ∃ trio : Trio, c.held[x.pair]? = some trio ∧
      some x.period ∈ trio.periods := (hasPeriod_held abreast.sound.held).1 ⟨x, mem, rfl⟩
  have held := abreast.held x.pair
  rw [there, Option.map_some, eq_comm, Option.map_eq_some_iff] at held
  obtain ⟨time, enrolls, periods⟩ := held
  obtain ⟨current, at_mark⟩ := abreast.exists_periodAt ample enrolls (le_max_left time mark)
  rw [← periods, livePeriods_of_periodAt at_mark] at stands
  -- The periods were live at an earlier time, when the current period was not a later one.
  obtain ⟨l, known, rfl⟩ := Option.map_eq_some_iff.1 hc
  obtain rfl : l = latency x.pair.transport := abreast.sound.latencies _ _ known
  have pos := ample.pos x.pair.transport _ rfl
  have before := ((Schedule.periodAt_eq_some_iff pos).1 at_mark).2
  have mono : Schedule.cycle (origin x.pair).epoch _ _ ≤ Schedule.cycle _ _ now :=
    Schedule.cycle_mono pos (max_le (abreast.timely _ _ enrolls).2 abreast.mark_le)
  rw [abreast.tolerance_eq]
  simp only [List.mem_cons, Option.some.injEq, List.not_mem_nil, or_false] at stands
  omega

/-- A check leaves every pair with the periods that are live. -/
theorem check {s : Station}
    (abreast : Abreast suite origin latency tolerance enrolled mark s.post.agenda.now s.core)
    (ample : Ample origin tolerance (fun transport l => l = latency transport) s.post.agenda.now)
    (running : s.keyring.running = true) :
    Abreast suite origin latency tolerance enrolled s.post.agenda.now s.post.agenda.now
      (s.check suite).core := by
  obtain ⟨r, plans⟩ := abreast.plans ample
  have effect := check_of_smooth abreast.smooth running plans
  have follows : Act.rotate.Follows origin fun transport l => l = latency transport := trivial
  refine ⟨abreast.sound.effect follows (abreast.tolerance_eq ▸ ample.fits) effect,
    abreast.backed.effect abreast.sound follows (abreast.tolerance_eq ▸ ample) effect,
    abreast.smooth.effect effect, effect.tolerance_eq.trans abreast.tolerance_eq, le_rfl,
    abreast.timely, fun pair => ?_⟩
  generalize (s.check suite).core = c at effect
  cases effect with
  | rotated quiet plans offered rolls =>
    have sound := abreast.sound
    have planned := sound.planned_held (abreast.tolerance_eq ▸ ample.fits) plans
    have held := abreast.held pair
    cases there : s.core.held[pair]? with
    | none =>
      rw [there, Option.map_none, eq_comm, Option.map_eq_none_iff] at held
      rw [held, Option.map_none, Option.map_eq_none_iff]
      by_contra occupied
      obtain ⟨trio, there'⟩ := Option.ne_none_iff_exists'.1 occupied
      obtain ⟨period, mem⟩ := planned.hasPeriod_of_held there'
      obtain ⟨trio, there', -⟩ := (hasPeriod_held sound.held).1 mem
      cases there.symm.trans there'
    | some trio =>
      rw [there, Option.map_some, eq_comm, Option.map_eq_some_iff] at held
      obtain ⟨time, enrolls, -⟩ := held
      obtain ⟨first, l, current, known, at_now, lt, row, -⟩ :=
        abreast.backed.rotate_row sound (abreast.tolerance_eq ▸ ample) planned there
      obtain rfl : l = latency pair.transport := sound.latencies _ _ known
      have periods := planned.periods_held known
        (ample.roomy pair _ current rfl (abreast.tolerance_eq ▸ at_now)) at_now
        (abreast.tolerance_eq ▸ ample.pos pair.transport _ rfl) lt ((row first).2 (.inl rfl))
      rw [periods, enrolls, Option.map_some, max_eq_right (abreast.timely pair time enrolls).2,
        livePeriods_of_periodAt (abreast.tolerance_eq ▸ at_now)]

end Abreast

end Station

end SealedStream
