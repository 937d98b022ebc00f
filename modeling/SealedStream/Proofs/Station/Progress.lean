import SealedStream.Proofs.Station.Everywhere
import SealedStream.Proofs.Station.Triples

/-!
# What enrolling a link again does to its counters

A link that is enrolled again keeps the rows of the periods around the current one as they are, with
their counters and windows. Other periods that were held are removed. That does no harm if they lie
before the current one. But the current period is reckoned with the new latency: with a longer one it
is an earlier period, and then rows are removed that a later rotation derives anew, with no stream
counted and none seen.

## Main definitions

* `Station.Continues` — a row counts no fewer streams, and has seen no fewer.
* `Station.KeepsProgress` — the rows of a pair continue or lie before all that is held.
* `Station.Arrived` — no secret of a period is there before the period can have come.

## Main statements

* `Station.Enrolled.keepsProgress_iff` — which enrollments keep the progress of a pair.
* `Station.Arrived.effect` — no act brings secrets of later periods than the clock allows.
* `Station.keeps_progress_iff` — the same for runs, where progress is kept as long as latencies do not
  grow.
-/

namespace SealedStream

open Std

namespace Station

open Rollover

variable {suite : Suite} {origin : Pair → Origin} {allowed : Transport → Nat → Prop}
  {now later : Nat} {link : Link} {current : Nat} {handshake : Key} {c c' : Core}

/-! ## The progress of a pair -/

/-- The secret is the same, no fewer of its streams are counted, and all that were seen still are. -/
structure Continues (row row' : PeriodSecret) : Prop where
  key : row'.key = row.key
  outgoing : row.outgoing ≤ row'.outgoing
  seen : ∀ number, row.incoming.Seen number → row'.incoming.Seen number

theorem Continues.refl (row : PeriodSecret) : Continues row row := ⟨rfl, le_rfl, fun _ => id⟩

/-- Every stored secret of the pair continues, or it is earlier than all that are held. -/
def KeepsProgress (pair : Pair) (c c' : Core) : Prop :=
  ∀ (period : Nat) (row : PeriodSecret),
    c.vault.rows[(⟨pair, period⟩ : PeriodId)]? = some row →
    (∃ row', c'.vault.rows[(⟨pair, period⟩ : PeriodId)]? = some row' ∧ Continues row row') ∨
      ∀ other, c'.Holds ⟨pair, other⟩ → period < other

/-- Progress is lost where a row is gone and an earlier period is held. -/
theorem not_keepsProgress {pair : Pair} {period other : Nat}
    (stored : (⟨pair, period⟩ : PeriodId) ∈ c.vault.rows)
    (gone : (⟨pair, period⟩ : PeriodId) ∉ c'.vault.rows) (held : c'.Holds ⟨pair, other⟩)
    (le : other ≤ period) : ¬ KeepsProgress pair c c' := by
  intro keeps
  rcases keeps period _ (ExtTreeMap.getElem?_eq_some_getElem stored) with ⟨row, there, -⟩ | before
  · exact gone (by simp [ExtTreeMap.mem_iff_isSome_getElem?, there])
  · exact absurd (before other held) (by omega)

/-- An enrollment keeps the progress of its pair exactly if it brings the keys of the periods that are
stored, and if none is stored and held that is later than the new ones. -/
theorem Enrolled.keepsProgress_iff (enrolled : Enrolled suite link handshake current c c')
    (named : Vault.RowsOf (fun _ => True) c.vault.rows) (pos : 0 < current) :
    KeepsProgress link.toPair c c' ↔
      (∀ (period : Nat) (row : PeriodSecret), Near current period →
        c.vault.rows[(⟨link.toPair, period⟩ : PeriodId)]? = some row →
          row.key = suite.chain handshake period) ∧
      ∀ period, (⟨link.toPair, period⟩ : PeriodId) ∈ c.vault.rows →
        c.Holds ⟨link.toPair, period⟩ → period ≤ current + 1 := by
  have holds_iff {period : Nat} : c'.Holds ⟨link.toPair, period⟩ ↔ Near current period :=
    enrolled.holds_iff named pos
  constructor
  · intro keeps
    constructor
    · intro period row near there
      obtain ⟨row', there', -, key, -⟩ := enrolled.row_of_near named near
      rcases keeps period row there with ⟨row'', there'', continues⟩ | before
      · obtain rfl := Option.some.inj (there'.symm.trans there'')
        exact continues.key.symm.trans key
      · exact absurd (before period (holds_iff.2 near)) (lt_irrefl _)
    · intro period stored held
      by_contra ahead
      have far : ¬ Near current period := by unfold Near; omega
      rcases keeps period _ (ExtTreeMap.getElem?_eq_some_getElem stored) with
        ⟨row', there, -⟩ | before
      · cases (enrolled.gone period far held).symm.trans there
      · have := before (current + 1) (holds_iff.2 (.inr (.inr rfl)))
        omega
  · rintro ⟨keys, behind⟩ period row there
    by_cases near : Near current period
    · refine .inl ⟨row, ?_, .refl row⟩
      rw [enrolled.near period near, there, merged_some_fresh, if_pos (keys period row near there)]
    by_cases held : c.Holds ⟨link.toPair, period⟩
    · have stored : (⟨link.toPair, period⟩ : PeriodId) ∈ c.vault.rows := by
        simp [ExtTreeMap.mem_iff_isSome_getElem?, there]
      have le := behind period stored held
      refine .inr fun other held => ?_
      have near' := holds_iff.1 held
      unfold Near at near near'
      omega
    · exact .inl ⟨row, (enrolled.kept period near held).trans there, .refl row⟩

/-! ## Periods that have come -/

/-- With an allowed latency, the period is at most the one after the current one. -/
def Reached (origin : Pair → Origin) (allowed : Transport → Nat → Prop) (tolerance now : Nat)
    (id : PeriodId) : Prop :=
  ∃ latency, allowed id.transport latency ∧ (id.period : Int) ≤
    Schedule.cycle (origin id.toPair).epoch (Schedule.interval latency tolerance) now + 1

/-- The periods of all stored and held secrets have come. -/
structure Arrived (origin : Pair → Origin) (allowed : Transport → Nat → Prop) (now : Nat) (c : Core) :
    Prop where
  rows : Vault.RowsOf (fun s => Reached origin allowed c.tolerance now s.id) c.vault.rows
  held : ∀ x ∈ c.secrets, Reached origin allowed c.tolerance now x.id

theorem Came.reached {tolerance : Nat} {id : PeriodId} (came : Came origin allowed tolerance now id) :
    Reached origin allowed tolerance now id := by
  obtain ⟨latency, current, allow, at_now, le⟩ := came
  have cycle := Schedule.coe_eq_cycle_of_periodAt at_now
  exact ⟨latency, allow, by omega⟩

theorem Act.Follows.brings {act : Act} (follows : act.Follows origin allowed) :
    ∀ x ∈ act.latency?, allowed x.1 x.2 := by
  rintro x brings
  cases act with
  | enroll link latency handshake =>
    cases brings
    exact follows.2.2
  | react notice =>
    cases notice with
    | transportUp transport latency =>
      cases brings
      exact follows
    | _ => cases brings
  | _ => cases brings

/-- No act brings secrets of later periods than the clock allows. -/
theorem Arrived.effect {s : Station} {act : Act} {report : Report} {c : Core}
    (arrived : Arrived origin allowed later s.core) (sound : Sound suite origin allowed s.core)
    (follows : act.Follows origin allowed) (le : now ≤ later)
    (effect : Effect suite now s act report c) : Arrived origin allowed later c := by
  have every : s.core.Everywhere (Reached origin allowed s.core.tolerance later) :=
    ⟨arrived.rows, arrived.held⟩
  have own (link : Link) (latency : Nat) (handshake : Key)
      (enrolls : act = .enroll link latency handshake) :
      link = (origin link.toPair).link link.toPair := by
    subst enrolls
    exact follows.1
  have after : c.Everywhere (Reached origin allowed s.core.tolerance later) :=
    every.effect sound.linked_stored sound.linked_held ⟨sound.recorded, sound.latencies⟩
      follows.brings own (fun _ _ _ _ allow at_now near => (came_of_near allow at_now le near).reached)
      effect
  rw [← effect.tolerance_eq] at after
  exact ⟨after.rows, after.held⟩

theorem arrived_stopped {settings : Settings} {serial : Nat} {post : Post}
    (blank : post.vault.vault.rows = ∅) :
    Arrived origin allowed now (core ⟨.stopped settings serial, post⟩) where
  rows := by
    intro id s there
    simp [core, blank] at there
  held x mem := absurd mem (not_mem_secrets_empty x)

/-- A run at readings that are not later leaves nothing but secrets whose periods have come. -/
theorem Arrived.run {acts : List (Nat × Act)} {s : Station}
    (arrived : Arrived origin allowed later s.core) (sound : Sound suite origin allowed s.core)
    (follows : ∀ act ∈ acts, act.2.Follows origin allowed)
    (fits : ∀ act ∈ acts, Fits origin s.core.tolerance allowed act.1)
    (le : ∀ act ∈ acts, act.1 ≤ later) : Arrived origin allowed later (s.run suite acts).core := by
  refine (run_induction (fun t => Arrived origin allowed later t.core ∧
    Sound suite origin allowed t.core ∧ t.core.tolerance = s.core.tolerance) ?_
      ⟨arrived, sound, rfl⟩).1
  rintro t now act mem ⟨arrived, sound, eq⟩
  have effect : Effect suite now (t.atTime now) act _ _ := effect_perform now act t
  have arrived' : Arrived origin allowed later (t.atTime now).core := arrived
  exact ⟨arrived'.effect sound (follows _ mem) (le _ mem) effect,
    sound.perform (follows _ mem) (eq ▸ fits _ mem), effect.tolerance_eq.trans eq⟩

/-- What is held is not later than the period after the current one, if no latency that was used
before was shorter than the one that the current period is reckoned with. -/
theorem Arrived.le_of_holds {tolerance latency period : Nat} {pair : Pair}
    (arrived : Arrived origin allowed now c) (tied : c.tolerance = tolerance)
    (at_now : Schedule.periodAt (origin pair).epoch (Schedule.interval latency tolerance) now =
      some current)
    (longest : ∀ earlier, allowed pair.transport earlier → latency ≤ earlier)
    (held : c.Holds ⟨pair, period⟩) : period ≤ current + 1 := by
  subst tied
  obtain ⟨trio, there, turn, x, stands, named⟩ := held
  obtain ⟨earlier, allow, le⟩ :=
    arrived.held x (mem_heldSecrets.2 ⟨pair, trio, turn, there, stands⟩)
  rw [named] at allow le
  have pos := Schedule.interval_pos_of_periodAt at_now
  obtain ⟨after, cycle⟩ := (Schedule.periodAt_eq_some_iff pos).1 at_now
  have shorter : Schedule.interval latency c.tolerance ≤ Schedule.interval earlier c.tolerance :=
    Schedule.interval_mono (longest earlier allow)
  have longer := Schedule.cycle_anti pos shorter after
  change (period : Int) ≤ Schedule.cycle (origin pair).epoch _ now + 1 at le
  omega

/-! ## Enrolling again in a run -/

/-- From any rows, whatever happens and whichever calls fail: an enrollment that succeeds keeps the
progress of its pair exactly if it brings the keys of the periods around the current one that are
stored, and none is stored and held that is later. If all secrets of a pair come from one origin and
the clock does not go back, this is so whenever no latency that was used before was shorter. -/
theorem keeps_progress_iff {settings : Settings} {serial : Nat} {post : Post}
    {acts : List (Nat × Act)} {latency : Nat} {t : Station}
    (named : Vault.RowsOf (fun _ => True) post.vault.vault.rows)
    (performed : (run suite acts ⟨.stopped settings serial, post⟩).perform suite now
      (.enroll link latency handshake) = (.done, t)) :
    let s := run suite acts ⟨.stopped settings serial, post⟩
    let current := (now - link.epoch) / Schedule.interval latency settings.tolerance + 1
    (KeepsProgress link.toPair s.core t.core ↔
      (∀ (period : Nat) (row : PeriodSecret), Near current period →
        s.core.vault.rows[(⟨link.toPair, period⟩ : PeriodId)]? = some row →
          row.key = suite.chain handshake period) ∧
      ∀ period, (⟨link.toPair, period⟩ : PeriodId) ∈ s.core.vault.rows →
        s.core.Holds ⟨link.toPair, period⟩ → period ≤ current + 1) ∧
    ∀ (origin : Pair → Origin) (allowed : Transport → Nat → Prop), post.vault.vault.rows = ∅ →
      (∀ (transport : Transport) (latency : Nat),
        post.vault.vault.latencies[transport]? = some latency → allowed transport latency) →
      (∀ act ∈ acts, act.2.Follows origin allowed ∧ act.1 ≤ now ∧
        Fits origin settings.tolerance allowed act.1) →
      link = (origin link.toPair).link link.toPair → handshake = (origin link.toPair).handshake →
      (∀ earlier, allowed link.transport earlier → latency ≤ earlier) →
        KeepsProgress link.toPair s.core t.core := by
  intro s current
  have tolerance : s.core.tolerance = settings.tolerance := tolerance_run acts _
  have named' : Vault.RowsOf (fun _ => True) s.core.vault.rows := named_run named
  have effect : Effect suite now (s.atTime now) (.enroll link latency handshake) _ _ :=
    effect_perform now _ s
  rw [performed] at effect
  obtain ⟨period, at_now, enrolled⟩ := effect.enrolled_of_done named'
  rw [show (s.atTime now).core.tolerance = settings.tolerance from tolerance] at at_now
  obtain rfl : current = period := (Schedule.of_periodAt at_now).2.symm
  have keeps_iff := enrolled.keepsProgress_iff named' (Schedule.pos_of_periodAt at_now)
  refine ⟨keeps_iff, ?_⟩
  intro origin allowed blank recorded regular own same longest
  have follows act mem := (regular act mem).1
  have fits act mem := (regular act mem).2.2
  have sound : Sound suite origin allowed s.core := (sound_stopped blank recorded).run follows fits
  have arrived : Arrived origin allowed now s.core :=
    (arrived_stopped blank).run (sound_stopped blank recorded) follows fits
      fun act mem => (regular act mem).2.1
  refine keeps_iff.2 ⟨?_, ?_⟩
  · intro period row _ there
    obtain ⟨row_id, real⟩ := sound.rows _ row there
    obtain ⟨row_pair, rfl⟩ := PeriodId.mk.inj row_id
    rw [real.key, show row.pair = link.toPair from row_pair, same]
  · intro period _ held
    rw [show link.epoch = (origin link.toPair).epoch from congrArg Link.epoch own] at at_now
    exact arrived.le_of_holds tolerance at_now longest held

/-- A link is enrolled, a stream is opened, and the link is enrolled again a period later. -/
theorem keeps_progress_reenrolled :
    let link : Link := ⟨⟨1, "tcp"⟩, 0, .alice⟩
    let s := run bare [(1000, .enroll link 20 .wiped), (2000, .issue link.toPair)]
      ⟨.stopped .standard 0, Peer.postAt ⟨.setLatency "tcp" 20 .empty, .clear⟩ 0⟩
    let ended := s.perform bare 4000000 (.enroll link 20 .wiped)
    ended.1 = .done ∧ KeepsProgress link.toPair s.core ended.2.core := by
  intro link s ended
  have done : ended.1 = .done := by decide +kernel
  refine ⟨done, (@keeps_progress_iff bare 4000000 link .wiped .standard 0
    (Peer.postAt ⟨.setLatency "tcp" 20 .empty, .clear⟩ 0)
    [(1000, .enroll link 20 .wiped), (2000, .issue link.toPair)] 20 ended.2 ?_
    (perform_eq done)).2 (fun _ => ⟨0, .alice, .wiped⟩) (fun _ latency => latency = 20)
    rfl ?_ ?_ rfl rfl ?_⟩
  · intro id x there
    simp [show (Peer.postAt ⟨.setLatency "tcp" 20 .empty, .clear⟩ 0).vault.vault.rows = ∅ from rfl]
      at there
  · intro transport latency known
    exact (latencies_postAt_iff.1 known).2.symm
  · have fits (now : Nat) (lt : now < Count.top) : Fits (fun _ => ⟨0, .alice, .wiped⟩)
        Settings.standard.tolerance (fun _ latency => latency = 20) now :=
      ⟨by rintro _ _ rfl; decide, counted_of_lt lt⟩
    simp only [List.mem_cons, List.not_mem_nil, or_false, forall_eq_or_imp, forall_eq]
    exact ⟨⟨⟨rfl, rfl, rfl⟩, by decide, fits _ (by decide)⟩, trivial, by decide, fits _ (by decide)⟩
  · rintro _ rfl
    exact le_rfl

/-- A link is enrolled and a stream is opened. Then the link is enrolled again with a latency that
doubles its periods: the secret of the stream is removed, though the rotations to come lead to its
period again. -/
theorem not_keeps_progress_longer :
    let link : Link := ⟨⟨1, "tcp"⟩, 0, .alice⟩
    let s := run bare [(40000000, .enroll link 20 .wiped), (40000000, .issue link.toPair)]
      ⟨.stopped .standard 0, Peer.postAt ⟨.setLatency "tcp" 20 .empty, .clear⟩ 0⟩
    let ended := s.perform bare 40000000 (.enroll link 3600040 .wiped)
    ended.1 = .done ∧ s.core.Holds ⟨link.toPair, 12⟩ ∧
      ¬ KeepsProgress link.toPair s.core ended.2.core := by
  intro link s ended
  have ran : (ended.1 = .done ∧ s.core.Holds ⟨link.toPair, 12⟩) ∧
      (⟨link.toPair, 12⟩ : PeriodId) ∈ s.core.vault.rows ∧
        (⟨link.toPair, 12⟩ : PeriodId) ∉ ended.2.core.vault.rows ∧
          ended.2.core.Holds ⟨link.toPair, 6⟩ := by
    decide +kernel
  obtain ⟨⟨done, held⟩, stored, gone, lower⟩ := ran
  exact ⟨done, held, not_keepsProgress stored gone lower (by decide)⟩

end Station

end SealedStream
