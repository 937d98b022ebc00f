import SealedStream.Proofs.Station.Progress

/-!
# Secrets that are left over

A rotation retires what is dead among the held secrets. What is stored of a held pair without being
held is left over: no rotation ever looks at it again, and it stays when it is dead. A rotation leaves
nothing over by itself. What it finds left over it either holds from then on, or leaves.

## Main definitions

* `Station.Core.LeftOver` — a secret of a held pair is stored, but not held.
* `Station.PastEnd` — a secret is past its destruction.

## Main statements

* `Station.Backed.leftOver_rotated` — a rotation leaves over what it found left over and dead.
* `Station.Backed.clear_effect` — what leaves nothing over.
* `Station.leftOver_iff` — what is left over after the rotations of a run.
-/

namespace SealedStream.Station

open Std Rollover

variable {suite : Suite} {origin : Pair → Origin} {allowed : Transport → Nat → Prop}
  {latency : Transport → Nat} {now : Nat} {c c' : Core} {id : PeriodId}

/-- The pair is held, and the secret is stored, but it is not held. -/
def Core.LeftOver (c : Core) (id : PeriodId) : Prop :=
  id.toPair ∈ c.held ∧ id ∈ c.vault.rows ∧ ¬ c.Holds id

instance (c : Core) (id : PeriodId) : Decidable (c.LeftOver id) :=
  inferInstanceAs (Decidable (_ ∧ _ ∧ _))

/-- With the latency of its transport, the secret is past its destruction. -/
def PastEnd (origin : Pair → Origin) (latency : Transport → Nat) (tolerance now : Nat)
    (id : PeriodId) : Prop :=
  (Schedule.lifespan (origin id.toPair).epoch
    (Schedule.interval (latency id.transport) tolerance) id.period).destruction ≤ now

instance (origin : Pair → Origin) (latency : Transport → Nat) (tolerance now : Nat) (id : PeriodId) :
    Decidable (PastEnd origin latency tolerance now id) :=
  inferInstanceAs (Decidable (_ ≤ _))

theorem pastEnd_iff {tolerance current period : Nat} {pair : Pair}
    (at_now : Schedule.periodAt (origin pair).epoch
      (Schedule.interval (latency pair.transport) tolerance) now = some current) :
    PastEnd origin latency tolerance now ⟨pair, period⟩ ↔ period + 2 ≤ current := by
  rw [PastEnd, ← Schedule.stageAt_eq_dead_iff_le]
  exact (Schedule.agrees_of_periodAt at_now).dead_iff

/-! ## Held periods -/

theorem Sound.holds_iff (sound : Sound suite origin allowed c) {pair : Pair} {period : Nat} :
    c.Holds ⟨pair, period⟩ ↔ HasPeriod c.secrets pair period := by
  constructor
  · rintro ⟨trio, there, turn, x, stands, named⟩
    exact ⟨x, mem_heldSecrets.2 ⟨pair, trio, turn, there, stands⟩, named⟩
  · rintro ⟨x, mem, named⟩
    obtain ⟨pair', trio, turn, there, stands⟩ := mem_heldSecrets.1 mem
    obtain ⟨first, row⟩ := sound.held pair' trio there
    obtain rfl : pair' = pair := (row turn x stands).1.symm.trans (congrArg PeriodId.toPair named)
    exact ⟨trio, there, turn, x, stands, named⟩

/-- A pair that holds the secrets around the current period holds no other ones. -/
theorem Sound.holds_iff_near (sound : Sound suite origin allowed c) {pair : Pair} {trio : Trio}
    {current period : Nat} (pos : 0 < current) (there : c.held[pair]? = some trio)
    (periods : trio.periods = [some (current - 1), some current, some (current + 1)]) :
    c.Holds ⟨pair, period⟩ ↔ Near current period := by
  rw [sound.holds_iff, Core.secrets, hasPeriod_held sound.held]
  simp only [there, Option.some.injEq, exists_eq_left', periods, List.mem_cons, List.not_mem_nil,
    or_false, Near]
  omega

/-! ## What a rollover leaves over -/

/-- Where there is one latency for each transport, no stored period is later than the next one. -/
theorem Arrived.le_of_stored {tolerance current period : Nat} {pair : Pair}
    (arrived : Arrived origin (fun transport l => l = latency transport) now c)
    (same : c.tolerance = tolerance)
    (at_now : Schedule.periodAt (origin pair).epoch
      (Schedule.interval (latency pair.transport) tolerance) now = some current)
    (stored : (⟨pair, period⟩ : PeriodId) ∈ c.vault.rows) : period ≤ current + 1 := by
  subst same
  have cycle := Schedule.coe_eq_cycle_of_periodAt at_now
  obtain ⟨named, _, rfl, le⟩ := arrived.rows _ _ (ExtTreeMap.getElem?_eq_some_getElem stored)
  rw [named] at le
  change (period : Int) ≤ Schedule.cycle (origin pair).epoch
    (Schedule.interval (latency pair.transport) _) now + 1 at le
  omega

section Rolled

variable (backed : Backed c)
  (sound : Sound suite origin (fun transport l => l = latency transport) c)
  (ample : Ample origin c.tolerance (fun transport l => l = latency transport) now)
  (arrived : Arrived origin (fun transport l => l = latency transport) now c)
  (sound' : Sound suite origin (fun transport l => l = latency transport) c') {r : Rollover}
  (rows : c'.vault.rows = persisted r c.vault.rows) (held : c'.held = r.held)
include backed sound ample arrived sound' rows held

/-- A rotation leaves over what it found left over and dead, and nothing else. -/
theorem Backed.leftOver_rotated
    (planned : Planned suite origin now c.latencies c.tolerance c.secrets r) :
    (c'.LeftOver id ↔ c.LeftOver id ∧ PastEnd origin latency c.tolerance now id) ∧
      (c'.Holds id → ¬ PastEnd origin latency c.tolerance now id) := by
  obtain ⟨pair, period⟩ := id
  by_cases there : pair ∈ c.held
  · obtain ⟨first, _, current, known, at_now, lt, row, -⟩ := backed.rotate_row sound ample planned
      (ExtTreeMap.getElem?_eq_some_getElem there)
    obtain rfl := sound.latencies _ _ known
    have room := ample.roomy _ _ _ rfl at_now
    have pos := Schedule.interval_pos_of_periodAt at_now
    have periods := planned.periods_held known room at_now pos lt ((row first).2 (.inl rfl))
    obtain ⟨trio, held', periods⟩ := Option.map_eq_some_iff.1 periods
    rw [← held] at held'
    have holds' : c'.Holds ⟨pair, period⟩ ↔ Near current period :=
      sound'.holds_iff_near (Schedule.pos_of_periodAt at_now) held' periods
    have stored' : (⟨pair, period⟩ : PeriodId) ∈ persisted r c.vault.rows ↔ _ :=
      mem_persisted_iff planned sound.rows known pos room at_now
    have behind (stored : (⟨pair, period⟩ : PeriodId) ∈ c.vault.rows) : period ≤ current + 1 :=
      arrived.le_of_stored rfl at_now stored
    have held_after : pair ∈ c'.held := by simp [ExtTreeMap.mem_iff_isSome_getElem?, held']
    simp only [Core.LeftOver, there, held_after, true_and, rows, pastEnd_iff at_now, holds', stored',
      sound.holds_iff]
    constructor
    · constructor
      · rintro ⟨⟨stored | derived, alive⟩, far⟩
        · have le := behind stored
          unfold Near at far
          exact ⟨⟨stored, fun held => alive ⟨held, by omega⟩⟩, by omega⟩
        · exact absurd derived.near far
      · rintro ⟨⟨stored, unheld⟩, dead⟩
        exact ⟨⟨.inl stored, fun ⟨held, _⟩ => unheld held⟩, by unfold Near; omega⟩
    · intro near dead
      unfold Near at near
      omega
  · -- A rotation comes to hold no new pair.
    have unheld : ¬ pair ∈ c'.held := by
      intro there'
      rw [held] at there'
      obtain ⟨p, mem⟩ := planned.hasPeriod_of_held (ExtTreeMap.getElem?_eq_some_getElem there')
      obtain ⟨trio, there'', -⟩ := (hasPeriod_held sound.held).1 mem
      exact there (by simp [ExtTreeMap.mem_iff_isSome_getElem?, there''])
    refine ⟨iff_of_false (fun left => unheld left.1) fun left => there left.1.1, ?_⟩
    rintro ⟨trio, there', -⟩
    exact absurd (by simp [ExtTreeMap.mem_iff_isSome_getElem?, there']) unheld

/-- A start leaves nothing over. -/
theorem Backed.clear_started
    (planned : Planned suite origin now c.vault.latencies c.tolerance c.vault.rows.values r) :
    ¬ c'.LeftOver id := by
  obtain ⟨pair, period⟩ := id
  rintro ⟨there, stored, unheld⟩
  have held' := ExtTreeMap.getElem?_eq_some_getElem there
  obtain ⟨_, current, known, at_now, periods, -⟩ :=
    backed.start_periods sound ample planned (by rw [← held]; exact held')
  obtain rfl := sound.recorded _ _ known
  rw [sound'.holds_iff_near (Schedule.pos_of_periodAt at_now) held' periods] at unheld
  rw [rows, mem_persisted_iff planned sound.rows known (Schedule.interval_pos_of_periodAt at_now)
    (ample.roomy _ _ _ rfl at_now) at_now] at stored
  obtain ⟨stored | derived, alive⟩ := stored
  · have le := arrived.le_of_stored rfl at_now stored
    refine alive ⟨(hasPeriod_values sound.rows).2 stored, ?_⟩
    unfold Near at unheld
    omega
  · exact unheld derived.near

end Rolled

/-! ## Runs that leave nothing over -/

/-- What is left over after an act that stores and holds no more was left over before. -/
theorem Core.LeftOver.of_sub (left : c'.LeftOver id)
    (held : ∀ trio : Trio, c'.held[id.toPair]? = some trio → c.held[id.toPair]? = some trio)
    (rows : id ∈ c'.vault.rows → id ∈ c.vault.rows) : c.LeftOver id := by
  obtain ⟨there, stored, unheld⟩ := left
  have held' := ExtTreeMap.getElem?_eq_some_getElem there
  have held := held _ held'
  refine ⟨by simp [ExtTreeMap.mem_iff_isSome_getElem?, held], rows stored, ?_⟩
  rintro ⟨trio, there', stands⟩
  obtain rfl := Option.some.inj (held.symm.trans there')
  exact unheld ⟨_, held', stands⟩

/-- An enrollment leaves nothing over if its pair was held, or nothing of it was stored. -/
theorem Enrolled.clear {link : Link} {handshake : Key} {current : Nat}
    (enrolled : Enrolled suite link handshake current c c')
    (named : Vault.RowsOf (fun _ => True) c.vault.rows) (pos : 0 < current)
    (clear : ∀ id, ¬ c.LeftOver id)
    (known : link.toPair ∈ c.held ∨ ∀ period, (⟨link.toPair, period⟩ : PeriodId) ∉ c.vault.rows)
    (period : Nat) : ¬ c'.LeftOver ⟨link.toPair, period⟩ := by
  rintro ⟨-, stored, unheld⟩
  rw [enrolled.holds_iff named pos] at unheld
  rw [ExtTreeMap.mem_iff_isSome_getElem?] at stored
  by_cases held : c.Holds ⟨link.toPair, period⟩
  · simp [enrolled.gone period unheld held] at stored
  rw [enrolled.kept period unheld held, ← ExtTreeMap.mem_iff_isSome_getElem?] at stored
  rcases known with there | absent
  · exact clear _ ⟨there, stored, held⟩
  · exact absent period stored

/-- With a reliable vault and a directory that takes all secrets, no act leaves anything over, as long
as every link is enrolled for a pair that is held or of which nothing is stored. -/
theorem Backed.clear_effect {s : Station} {act : Act} {report : Report}
    (backed : Backed s.core)
    (sound : Sound suite origin (fun transport l => l = latency transport) s.core)
    (follows : act.Follows origin fun transport l => l = latency transport)
    (ample : Ample origin s.core.tolerance (fun transport l => l = latency transport) now)
    (arrived : Arrived origin (fun transport l => l = latency transport) now s.core)
    (reliable : s.core.Reliable) (willing : s.core.Willing)
    (known : ∀ link l handshake, act = .enroll link l handshake → link.toPair ∈ s.core.held ∨
      ∀ period, (⟨link.toPair, period⟩ : PeriodId) ∉ s.core.vault.rows)
    (effect : Effect suite now s act report c) (clear : ∀ id, ¬ s.core.LeftOver id) :
    ∀ id, ¬ c.LeftOver id := by
  have sound' := sound.effect follows ample.fits effect
  have named : Vault.RowsOf (fun _ => True) s.core.vault.rows := fun id x there =>
    ⟨(sound.rows id x there).1, trivial⟩
  intro id left
  have of_sub (held : ∀ trio : Trio, c.held[id.toPair]? = some trio →
      s.core.held[id.toPair]? = some trio) (rows : id ∈ c.vault.rows → id ∈ s.core.vault.rows) :
      False := clear id (left.of_sub held rows)
  have of_filter (keep : Pair → Bool) (trio : Trio)
      (there : (s.core.held.filter fun pair _ => keep pair)[id.toPair]? = some trio) :
      s.core.held[id.toPair]? = some trio := by
    rw [ExtTreeMap.getElem?_filter', Option.filter_eq_some_iff] at there
    exact there.1
  cases effect with
  | @enrolled link _ current _ _ _ _ at_now reached offered =>
    have pos := Schedule.pos_of_periodAt at_now
    obtain ⟨current', at_now', enrolled⟩ :=
      (Effect.enrolled at_now reached offered).enrolled_of_done named
    obtain rfl := Option.some.inj (at_now.symm.trans at_now')
    by_cases own : id.toPair = link.toPair
    · obtain ⟨pair, period⟩ := id
      obtain rfl : pair = link.toPair := own
      exact enrolled.clear named pos clear (known _ _ _ rfl) period left
    · refine of_sub (fun trio there => ?_) (mem_enrolled_of_ne sound follows pos (.inr reached) own).1
      rw [ExtTreeMap.getElem?_insert, if_neg (by simpa using Ne.symm own)] at there
      exact there
  | started plans =>
    exact backed.clear_started sound ample arrived sound' rfl rfl
      (sound.planned_stored ample.fits plans) left
  | rotated quiet plans =>
    have before := (backed.leftOver_rotated sound ample arrived sound' rfl rfl
      (sound.planned_held ample.fits plans)).1.1 left
    exact clear id before.1
  | contactGone reached =>
    refine of_sub (of_filter _) ?_
    rcases reached with rfl | rfl
    · exact fun mem => mem
    · exact fun mem => (mem_filter_ids.1 mem).1
  | transportGone reached =>
    refine of_sub (of_filter _) ?_
    rcases reached with rfl | rfl
    · exact fun mem => mem
    · exact fun mem => (mem_filter_ids.1 mem).1
  | kept | transportUp => exact clear id left
  | issued held kept => exact of_sub (fun _ there => there) (Vault.mem_insert_of_kept kept _ id).1
  | recognized => exact of_sub (fun _ there => there) (Vault.mem_withWindow _ _ _ id).1
  | stopped | replaced | restarted => exact absurd left.1 ExtTreeMap.not_mem_empty
  | enrolling _ _ unreliable => exact unreliable reliable
  | starting _ unreliable => exact unreliable reliable
  | startRefused _ unwilling => exact unwilling willing
  | rotating _ _ unreliable => exact unreliable reliable

theorem ample_of_latency {tolerance : Nat} (positive : ∀ transport, 0 < latency transport)
    (roomy : Roomy origin tolerance (fun transport l => l = latency transport) now) :
    Ample origin tolerance (fun transport l => l = latency transport) now where
  pos transport l := by
    rintro rfl
    have pos := positive transport
    rw [Schedule.interval, Count.plus, Count.top]
    omega
  roomy := roomy

/-- What an act of an orderly run finds. -/
theorem found_of_mem_log {settings : Settings} {serial : Nat} {post : Post}
    {acts : List (Nat × Act)} (blank : post.vault.vault.rows = ∅)
    (recorded : ∀ (transport : Transport) (l : Nat),
      post.vault.vault.latencies[transport]? = some l → l = latency transport)
    (positive : ∀ transport, 0 < latency transport)
    (ordered : acts.Pairwise fun a b => a.1 ≤ b.1)
    (follows : ∀ act ∈ acts, act.2.Follows origin fun transport l => l = latency transport)
    (roomy : ∀ act ∈ acts,
      Roomy origin settings.tolerance (fun transport l => l = latency transport) act.1)
    {e : Log.Entry Station (Nat × Act) Report}
    (mem : e ∈ log suite acts ⟨.stopped settings serial, post⟩) :
    Backed e.before.core ∧
      Sound suite origin (fun transport l => l = latency transport) e.before.core ∧
      Arrived origin (fun transport l => l = latency transport) e.act.1 e.before.core ∧
      Ample origin e.before.core.tolerance (fun transport l => l = latency transport) e.act.1 ∧
      e.before.core.tolerance = settings.tolerance := by
  obtain ⟨earlier, later, rfl, before⟩ := exists_run_of_mem_log mem
  have within {act : Nat × Act} (mem : act ∈ earlier) : act ∈ earlier ++ e.act :: later :=
    List.mem_append_left _ mem
  have ample (act : Nat × Act) (mem : act ∈ earlier ++ e.act :: later) :=
    ample_of_latency positive (roomy act mem)
  have sound : Sound suite origin (fun transport l => l = latency transport)
      (core ⟨.stopped settings serial, post⟩) :=
    sound_stopped blank recorded
  have tolerance : e.before.core.tolerance = settings.tolerance :=
    before ▸ tolerance_run earlier _
  rw [tolerance, before]
  refine ⟨?_, ?_, ?_, ample _ (by simp), rfl⟩
  · exact (backed_stopped blank).run sound (fun act mem => follows act (within mem))
      fun act mem => ample act (within mem)
  · exact sound.run (fun act mem => follows act (within mem))
      fun act mem => (ample act (within mem)).fits
  · refine (arrived_stopped blank).run sound (fun act mem => follows act (within mem))
      (fun act mem => (ample act (within mem)).fits) fun act mem => ?_
    exact (List.pairwise_append.1 ordered).2.2 act mem e.act List.mem_cons_self

/-- From a vault without secrets, with one origin for each pair, one latency for each transport and a
clock that does not go back, whatever happens and whichever calls fail: after a rotation that
succeeds just those secrets are left over that were left over before and are past their destruction,
and what is held is not past it. If no call fails and every link is enrolled for a pair that is held
or of which nothing is stored, then nothing is ever left over. -/
theorem leftOver_iff {settings : Settings} {serial : Nat} {post : Post} {acts : List (Nat × Act)}
    (blank : post.vault.vault.rows = ∅)
    (recorded : ∀ (transport : Transport) (l : Nat),
      post.vault.vault.latencies[transport]? = some l → l = latency transport)
    (positive : ∀ transport, 0 < latency transport)
    (ordered : acts.Pairwise fun a b => a.1 ≤ b.1)
    (follows : ∀ act ∈ acts, act.2.Follows origin fun transport l => l = latency transport)
    (roomy : ∀ act ∈ acts,
      Roomy origin settings.tolerance (fun transport l => l = latency transport) act.1) :
    let entries := log suite acts ⟨.stopped settings serial, post⟩
    (∀ e ∈ entries, e.act.2 = .rotate → e.report = .done → ∀ id,
      (e.after.core.LeftOver id ↔ e.before.core.LeftOver id ∧
        PastEnd origin latency settings.tolerance e.act.1 id) ∧
      (e.after.core.Holds id → ¬ PastEnd origin latency settings.tolerance e.act.1 id)) ∧
    (post.vault.Reliable → (∀ call x, post.intake.verdict call x = none) →
      (∀ e ∈ entries, ∀ link l handshake, e.act.2 = .enroll link l handshake →
        link.toPair ∈ e.before.core.held ∨
          ∀ period, (⟨link.toPair, period⟩ : PeriodId) ∉ e.before.core.vault.rows) →
      ∀ e ∈ entries, ∀ id, ¬ e.after.core.LeftOver id) := by
  intro entries
  constructor
  · intro e mem rotates done id
    obtain ⟨backed, sound, arrived, ample, tolerance⟩ :=
      found_of_mem_log blank recorded positive ordered follows roomy mem
    obtain ⟨within, effect⟩ := effect_of_mem_log mem
    have before : Sound suite origin (fun transport l => l = latency transport)
      (e.before.atTime e.act.1).core := sound
    have after := before.effect (follows _ within) ample.fits effect
    rw [rotates, done] at effect
    rw [← tolerance]
    generalize e.after.core = c at effect after ⊢
    cases effect with
    | rotated quiet plans =>
      exact backed.leftOver_rotated sound ample arrived after rfl rfl
        (sound.planned_held ample.fits plans)
  · intro reliable willing known e mem
    have clear : ∀ id, ¬ (core ⟨.stopped settings serial, post⟩).LeftOver id :=
      fun id left => absurd left.1 ExtTreeMap.not_mem_empty
    refine ((invariant_of_log (fun s => s.core.Reliable ∧ s.core.Willing ∧
      ∀ id, ¬ s.core.LeftOver id) ⟨reliable, willing, clear⟩ ?_) e mem).2.2.2
    rintro e mem ⟨reliable, willing, clear⟩
    obtain ⟨backed, sound, arrived, ample, -⟩ :=
      found_of_mem_log blank recorded positive ordered follows roomy mem
    obtain ⟨within, effect⟩ := effect_of_mem_log mem
    have backed' : Backed (e.before.atTime e.act.1).core := backed
    exact ⟨effect.reliable reliable, effect.willing willing,
      backed'.clear_effect sound (follows _ within) ample arrived reliable willing (known e mem)
        effect clear⟩

/-- A link is enrolled and its secrets are rotated much later. -/
theorem leftOver_rotated_late :
    let post := Peer.postAt ⟨.setLatency "tcp" 20 .empty, .clear⟩ 0
    let acts := [(1000, .enroll ⟨⟨1, "tcp"⟩, 0, .alice⟩ 20 .wiped), (40000000, .rotate)]
    ∀ e ∈ log .standard acts ⟨.stopped .standard 0, post⟩, ∀ id, ¬ e.after.core.LeftOver id := by
  intro post acts
  refine (@leftOver_iff .standard (fun _ => ⟨0, .alice, .wiped⟩) (fun _ => 20) .standard 0 post acts
    rfl ?_ (fun _ => by decide) ?_ ?_ ?_).2 ⟨rfl, fun _ _ => rfl⟩ (fun _ _ => rfl) ?_
  · exact fun transport l known => (latencies_postAt_iff.1 known).2.symm
  · simp [acts]
  · simp [acts, Act.Follows, Origin.link]
  · simp only [acts, List.mem_cons, List.not_mem_nil, or_false, forall_eq_or_imp, forall_eq]
    exact ⟨roomy_of_lt (by decide), roomy_of_lt (by decide)⟩
  · simp only [acts, log_cons, log_nil, List.forall_mem_cons]
    refine ⟨fun _ _ _ _ => .inr fun period => ?_, by simp, by simp⟩
    exact ExtTreeMap.not_mem_empty

/-- The vault refuses to remove what a first rotation retires. The next rotation succeeds, and leaves
what the first one derived, though it is long past its destruction. -/
theorem leftOver_unremoved :
    let refusal (call : Nat) (_ : VaultCall) :=
      if call = 5 then some (StoreFault.backend "full") else none
    let post := Peer.postAt ⟨.setLatency "tcp" 20 .empty, ⟨0, refusal⟩⟩ 0
    let acts := [(0, .start), (1000, .enroll ⟨⟨1, "tcp"⟩, 0, .alice⟩ 20 .wiped), (15000000, .rotate)]
    let ended := (run bare acts ⟨.stopped .standard 0, post⟩).perform bare 40000000 .rotate
    ended.1 = .done ∧ ended.2.core.LeftOver ⟨⟨1, "tcp"⟩, 4⟩ ∧
      PastEnd (fun _ => ⟨0, .alice, .wiped⟩) (fun _ => 20) 3600000 40000000 ⟨⟨1, "tcp"⟩, 4⟩ := by
  decide +kernel

end SealedStream.Station
