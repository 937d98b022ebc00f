import SealedStream.Proofs.Station.Everywhere

/-!
# When the clock is blamed

A rollover that finds a secret whose creation is still to come takes the clock to have moved backwards,
and does nothing at all. While the readings of the clock do not go back, there is one other cause: the
latency of a transport has become longer than one that was used before. Periods are longer then and the
current one is an earlier one, so a secret of a period that had come is not to be created for a while.

## Main definitions

* `Station.BlamesClock` — an operation fails and says that the clock has moved backwards.
* `Station.Used` — a latency was recorded at first or was brought by an act.
* `Station.Outrun` — a period has come with a latency that was used, but not with the present one.

## Main statements

* `Station.notYetCreated_iff_outrun` — which secrets are still to be created.
* `Station.rotate_cases`, `Station.start_cases` — an operation that blames the clock fails with its
  rollover.
* `Station.came_run` — in a run, all periods have come.
* `Station.clock_blamed_iff` — when a run leads to an operation that blames the clock.
-/

namespace SealedStream

open Std SealedStream.Action

/-! ## Secrets to be created -/

namespace Schedule

variable {epoch interval period now : Nat}

/-- From the epoch on, a secret is only to be created if periods have a length. -/
theorem pos_of_notYetCreated (after : epoch ≤ now)
    (early : (lifespan epoch interval period).stageAt now = .notYetCreated) : 0 < interval := by
  by_contra none
  obtain rfl : interval = 0 := by omega
  simp only [Lifespan.stageAt, lifespan] at early
  grind

end Schedule

namespace Rollover

variable {suite : Suite} {now tolerance : Nat} {latencies : ExtTreeMap Transport Nat}
  {secrets : List PeriodSecret}

/-- The fault of a rollover names a secret that is still to be created. -/
theorem early_of_plan_eq_error {fault : KeyringFault}
    (h : plan suite now latencies tolerance secrets = .error fault) :
    ∃ x ∈ secrets, stage? now latencies tolerance x = some .notYetCreated ∧
      ∃ creation : Int, (now : Int) < creation ∧ fault = .clockBehind x.id now creation := by
  obtain ⟨x, mem, span, known, early, rfl⟩ := of_planBy_eq_error h
  refine ⟨x, mem, ?_, span.creation, Schedule.lt_creation_of_notYetCreated early, rfl⟩
  rw [stage?, known, Option.map_some, early]

/-- A rollover of secrets whose periods have come works out. -/
theorem Orderly.exists_plan {origin : Pair → Origin}
    (orderly : Orderly origin now latencies tolerance suite secrets)
    (timely : ∀ x ∈ secrets, ∀ c, cycle? origin now latencies tolerance x.pair = some c →
      (x.period : Int) ≤ c + 1) : ∃ r, plan suite now latencies tolerance secrets = .ok r := by
  cases plans : plan suite now latencies tolerance secrets with
  | ok r => exact ⟨r, rfl⟩
  | error fault =>
    obtain ⟨x, mem, early, -⟩ := early_of_plan_eq_error plans
    obtain ⟨c, hc, late⟩ := (orderly.stage?_eq_notYetCreated_iff mem).1 early
    have := timely x mem c hc
    omega

end Rollover

namespace Station

variable {suite : Suite} {origin : Pair → Origin} {used : Transport → Nat → Prop}
  {now tolerance : Nat} {latencies : ExtTreeMap Transport Nat} {s t : Station}

/-- Reckoned with the present latency, the period comes after the one that comes next. With a shorter
one that was used, it has come. -/
def Outrun (origin : Pair → Origin) (used : Transport → Nat → Prop)
    (latencies : ExtTreeMap Transport Nat) (tolerance now : Nat) (id : PeriodId) : Prop :=
  ∃ latency earlier current before, latencies[id.transport]? = some latency ∧
    used id.transport earlier ∧ earlier < latency ∧
    Schedule.periodAt (origin id.toPair).epoch (Schedule.interval latency tolerance) now =
      some current ∧
    Schedule.periodAt (origin id.toPair).epoch (Schedule.interval earlier tolerance) now =
      some before ∧
    current + 1 < id.period ∧ id.period ≤ before + 1

/-- A secret whose period has come is only to be created where a longer latency has been recorded
since. -/
theorem notYetCreated_iff_outrun {x : PeriodSecret} (link : x.link = (origin x.pair).link x.pair)
    (came : Came origin used tolerance now x.id) :
    Rollover.stage? now latencies tolerance x = some .notYetCreated ↔
      Outrun origin used latencies tolerance now x.id := by
  rw [Rollover.stage?_eq link, Option.map_eq_some_iff]
  constructor
  · rintro ⟨latency, known, early⟩
    obtain ⟨earlier, before, use, at_before, le⟩ := came
    replace at_before : Schedule.periodAt (origin x.pair).epoch
      (Schedule.interval earlier tolerance) now = some before := at_before
    replace le : x.period ≤ before + 1 := le
    obtain ⟨after, cycle_before⟩ :=
      (Schedule.periodAt_eq_some_iff (Schedule.interval_pos_of_periodAt at_before)).1 at_before
    have pos := Schedule.pos_of_notYetCreated after early
    obtain ⟨current, at_now, cycle⟩ := Schedule.exists_periodAt pos
      ((Schedule.cycle_pos_iff pos).2 after)
    have ahead : current + 1 < x.period :=
      (Schedule.agrees_of_periodAt at_now).notYetCreated_iff.1 early
    refine ⟨latency, earlier, current, before, known, use, ?_, at_now, at_before, ahead, le⟩
    -- With a latency that is not longer, the current period would not be an earlier one.
    by_contra longer
    have shorter : Schedule.interval latency tolerance ≤ Schedule.interval earlier tolerance :=
      Schedule.interval_mono (Nat.le_of_not_lt longer)
    have anti := Schedule.cycle_anti pos shorter after
    omega
  · rintro ⟨latency, earlier, current, before, known, -, -, at_now, -, ahead, -⟩
    replace at_now : Schedule.periodAt (origin x.pair).epoch
      (Schedule.interval latency tolerance) now = some current := at_now
    replace ahead : current + 1 < x.period := ahead
    exact ⟨latency, known, (Schedule.agrees_of_periodAt at_now).notYetCreated_iff.2 ahead⟩

/-! ## Operations -/

/-- The operation fails and says that the clock has moved backwards. -/
def BlamesClock {α : Type} (r : Except KeyringFault α) : Prop :=
  ∃ id time creation, r = .error (.clockBehind id time creation)

theorem not_blamesClock_ok {α : Type} (a : α) : ¬ BlamesClock (.ok a) := by
  simp [BlamesClock]

/-- An operation that fails with its rollover, and otherwise not for the clock, blames the clock exactly
if a secret is outrun. -/
theorem blames_of_plan {α : Type} {r : Except KeyringFault α} {secrets : List PeriodSecret}
    (linked : Rollover.Linked origin secrets)
    (came : ∀ x ∈ secrets, Came origin used tolerance now x.id)
    (ends : (∃ fault, Rollover.plan suite now latencies tolerance secrets = .error fault ∧
        r = .error fault) ∨
      (∃ rollover, Rollover.plan suite now latencies tolerance secrets = .ok rollover) ∧
        ¬ BlamesClock r) :
    (BlamesClock r ↔ ∃ x ∈ secrets, Outrun origin used latencies tolerance now x.id) ∧
      ∀ id time creation, r = .error (.clockBehind id time creation) →
        time = now ∧ (now : Int) < creation ∧
          ∃ x ∈ secrets, x.id = id ∧ Outrun origin used latencies tolerance now id := by
  have outrun_iff {x : PeriodSecret} (mem : x ∈ secrets) :
      Rollover.stage? now latencies tolerance x = some .notYetCreated ↔
        Outrun origin used latencies tolerance now x.id :=
    notYetCreated_iff_outrun (linked.link x mem) (came x mem)
  rcases ends with ⟨fault, failed, rfl⟩ | ⟨⟨rollover, planned⟩, quiet⟩
  · obtain ⟨x, mem, early, creation, later, rfl⟩ := Rollover.early_of_plan_eq_error failed
    have outrun := (outrun_iff mem).1 early
    refine ⟨iff_of_true ⟨_, _, _, rfl⟩ ⟨x, mem, outrun⟩, ?_⟩
    rintro _ _ _ ⟨⟩
    exact ⟨rfl, later, x, mem, rfl, outrun⟩
  · refine ⟨iff_of_false quiet ?_, fun id time creation fails => absurd ⟨_, _, _, fails⟩ quiet⟩
    rintro ⟨x, mem, outrun⟩
    exact (Rollover.plan_eq_ok planned).1 x mem ((outrun_iff mem).2 outrun)

/-- A rotation fails with the fault of its rollover, or it does not blame the clock. -/
theorem rotate_cases {r : Except KeyringFault Rollover.Summary} (h : (rotate suite).Ends s r t) :
    (∃ fault, Rollover.plan suite s.post.agenda.now s.core.latencies s.core.tolerance s.core.secrets =
        .error fault ∧ r = .error fault ∧ t = s) ∨
      (∃ rollover, Rollover.plan suite s.post.agenda.now s.core.latencies s.core.tolerance
        s.core.secrets = .ok rollover) ∧ ¬ BlamesClock r := by
  rcases ends_rotateBy_iff.1 h with ⟨fault, plans, rfl, rfl⟩ | ⟨rollover, plans, h⟩
  · exact .inl ⟨fault, plans, rfl, rfl⟩
  refine .inr ⟨⟨rollover, plans⟩, ?_⟩
  rcases ends_bind_iff.1 h with ⟨fault, persisting, rfl⟩ | ⟨_, u, -, h⟩
  · obtain ⟨g, -, -, ⟨⟨_, fail⟩, -⟩ | ⟨ok, -⟩⟩ := persist_cases persisting
    · cases fail
      simp [BlamesClock]
    · cases ok
  · rw [conclude_cases h]
    exact not_blamesClock_ok _

/-- A start fails before its rollover or with the fault of it, or it does not blame the clock. -/
theorem start_cases {r : Except KeyringFault Unit} (h : (start suite).Ends s r t) :
    (s.keyring.running = true ∨ ¬ s.core.Reliable) ∧ ¬ BlamesClock r ∨
      (∃ fault, Rollover.plan suite s.post.agenda.now s.core.vault.latencies s.core.tolerance
        s.core.vault.rows.values = .error fault ∧ r = .error fault ∧ t.core = s.core) ∨
      (∃ rollover, Rollover.plan suite s.post.agenda.now s.core.vault.latencies s.core.tolerance
        s.core.vault.rows.values = .ok rollover) ∧ ¬ BlamesClock r := by
  simp only [start, ends_get_bind_iff] at h
  split at h
  · rename_i running
    obtain ⟨rfl, -⟩ := ends_throw_bind_iff.1 h
    exact .inl ⟨.inl running, by simp [BlamesClock]⟩
  rcases ends_bind_iff.1 h with ⟨fault, loaded, rfl⟩ | ⟨secrets, u, loaded, h⟩
  · obtain ⟨g, -, -, -, ⟨⟨_, fail⟩, unreliable⟩ | ok⟩ := onVault_secrets_cases loaded
    · cases fail
      exact .inl ⟨.inr unreliable, by simp [BlamesClock]⟩
    · cases ok
  obtain ⟨g, rfl, gate, same, ⟨⟨_, fail⟩, -⟩ | all⟩ := onVault_secrets_cases loaded
  · cases fail
  cases all
  rcases ends_bind_iff.1 h with ⟨fault, loaded', rfl⟩ | ⟨latencies, u, loaded', h⟩
  · obtain ⟨g', -, -, -, ⟨⟨_, fail⟩, unreliable⟩ | ok⟩ := onVault_transports_cases loaded'
    · cases fail
      refine .inl ⟨.inr ?_, by simp [BlamesClock]⟩
      simpa only [Core.Reliable, core, gate, same] using unreliable
    · cases ok
  obtain ⟨g', rfl, gate', same', ⟨⟨_, fail⟩, -⟩ | all⟩ := onVault_transports_cases loaded'
  · cases fail
  cases all
  simp only [ends_get_bind_iff, ends_now_bind_iff, same] at h same'
  rcases ends_ofExcept_bind_iff.1 h with ⟨fault, plans, rfl, rfl⟩ | ⟨rollover, plans, h⟩
  · refine .inr (.inl ⟨fault, plans, rfl, ?_⟩)
    rw [core_setVault (gate'.trans gate), same']
    rfl
  refine .inr (.inr ⟨⟨rollover, plans⟩, ?_⟩)
  rcases ends_bind_iff.1 h with ⟨fault, persisting, rfl⟩ | ⟨_, u, -, h⟩
  · obtain ⟨g, -, -, ⟨⟨_, fail⟩, -⟩ | ⟨ok, -⟩⟩ := persist_cases persisting
    · cases fail
      simp [BlamesClock]
    · cases ok
  rcases ends_bind_iff.1 h with ⟨fault, listing, rfl⟩ | ⟨_, u, -, h⟩
  · rcases listAll_cases listing with ⟨ok, -⟩ | ⟨⟨_, fail⟩, -⟩
    · cases ok
    · cases fail
      simp [BlamesClock]
  · rw [ends_modify_bind_iff] at h
    obtain ⟨rfl, -⟩ := ends_modify_iff.1 h
    exact not_blamesClock_ok _

/-! ## Runs -/

/-- The latency was recorded at first, or an act has brought it. -/
def Used (post : Post) (acts : List (Nat × Act)) (transport : Transport) (latency : Nat) : Prop :=
  post.vault.vault.latencies[transport]? = some latency ∨
    ∃ act ∈ acts, act.2.latency? = some (transport, latency)

variable {settings : Settings} {serial : Nat} {post : Post} {acts : List (Nat × Act)}

theorem Act.Bound.own {act : Act} (bound : act.Bound origin) {link : Link} {latency : Nat}
    {handshake : Key} (enrolls : act = .enroll link latency handshake) :
    link = (origin link.toPair).link link.toPair := by
  subst enrolls
  exact bound

/-- A run at readings that are not later leaves secrets of their pairs' links, whose periods have
come. -/
theorem came_run (blank : post.vault.vault.rows = ∅) (bound : ∀ act ∈ acts, act.2.Bound origin)
    (le : ∀ act ∈ acts, act.1 ≤ now) :
    let c := (run suite acts ⟨.stopped settings serial, post⟩).core
    Tied origin c ∧ c.Knows (Used post acts) ∧
      c.Everywhere (Came origin (Used post acts) settings.tolerance now) ∧
      c.tolerance = settings.tolerance := by
  refine run_induction (fun s => Tied origin s.core ∧ s.core.Knows (Used post acts) ∧
    s.core.Everywhere (Came origin (Used post acts) settings.tolerance now) ∧
      s.core.tolerance = settings.tolerance) ?_
    ⟨tied_stopped blank, ⟨fun _ _ => .inl, by simp [core, Keyring.stopped]⟩, everywhere_stopped blank,
      rfl⟩
  rintro t time act mem ⟨tied, knows, every, tolerance⟩
  have effect : Effect suite time (t.atTime time) act _ _ := effect_perform time act t
  have brings : ∀ x ∈ act.latency?, Used post acts x.1 x.2 := fun _ brought =>
    .inr ⟨_, mem, brought⟩
  have tied' : Tied origin (t.atTime time).core := tied
  have knows' : (t.atTime time).core.Knows (Used post acts) := knows
  have every' : (t.atTime time).core.Everywhere
    (Came origin (Used post acts) settings.tolerance now) := every
  refine ⟨tied'.effect (bound _ mem) effect, knows'.effect brings effect, ?_,
    effect.tolerance_eq.trans tolerance⟩
  refine every'.effect tied'.linked_stored tied'.linked_held knows' brings
    (fun _ _ _ => (bound _ mem).own) (fun pair latency current period use at_now near => ?_) effect
  rw [show (t.atTime time).core.tolerance = settings.tolerance from tolerance] at at_now
  exact came_of_near use at_now (le _ mem) near

/-- A keyring starts at a vault without secrets, and no reading of the clock in its run is later than
the present one. A rotation blames the clock exactly if a held secret is outrun, and it changes nothing.
A start does so only if a stored secret is outrun, and always then if it gets to see the vault. -/
theorem clock_blamed_iff (blank : post.vault.vault.rows = ∅) (bound : ∀ act ∈ acts, act.2.Bound origin)
    (le : ∀ act ∈ acts, act.1 ≤ now) :
    let s := (run suite acts ⟨.stopped settings serial, post⟩).atTime now
    let outrun latencies := Outrun origin (Used post acts) latencies settings.tolerance now
    (∀ r t, (rotate suite).Ends s r t →
      (BlamesClock r ↔ ∃ x ∈ s.core.secrets, outrun s.core.latencies x.id) ∧
      ∀ id time creation, r = .error (.clockBehind id time creation) →
        t = s ∧ time = now ∧ (now : Int) < creation ∧
          ∃ x ∈ s.core.secrets, x.id = id ∧ outrun s.core.latencies id) ∧
    ∀ r t, (start suite).Ends s r t →
      (s.keyring.running = false → s.core.Reliable →
        (∃ x ∈ s.core.vault.rows.values, outrun s.core.vault.latencies x.id) → BlamesClock r) ∧
      ∀ id time creation, r = .error (.clockBehind id time creation) →
        t.core = s.core ∧ time = now ∧ (now : Int) < creation ∧
          ∃ x ∈ s.core.vault.rows.values, x.id = id ∧ outrun s.core.vault.latencies id := by
  intro s outrun
  obtain ⟨tied, -, every, tolerance⟩ := @came_run suite origin now settings serial post acts blank bound le
  replace tied : Tied origin s.core := tied
  replace every : s.core.Everywhere (Came origin (Used post acts) settings.tolerance now) := every
  replace tolerance : s.core.tolerance = settings.tolerance := tolerance
  refine ⟨fun r t ends => ?_, fun r t ends => ?_⟩
  · have ended := rotate_cases ends
    rw [tolerance] at ended
    obtain ⟨blames_iff, told⟩ := blames_of_plan tied.linked_held every.held
      (ended.imp_left fun ⟨fault, plans, fails, _⟩ => ⟨fault, plans, fails⟩)
    refine ⟨blames_iff, fun id time creation fails => ⟨?_, told id time creation fails⟩⟩
    obtain ⟨-, -, -, same⟩ := ended.resolve_right fun quiet => quiet.2 ⟨_, _, _, fails⟩
    exact same
  · have stored : ∀ x ∈ s.core.vault.rows.values,
        Came origin (Used post acts) settings.tolerance now x.id := by
      intro x mem
      obtain ⟨id, there⟩ := mem_values.1 mem
      exact (every.rows id x there).2
    have ended := start_cases ends
    rw [tolerance] at ended
    rcases ended with ⟨unseen, quiet⟩ | ended
    · refine ⟨fun idle reliable => ?_, fun id time creation fails => absurd ⟨_, _, _, fails⟩ quiet⟩
      rcases unseen with running | unreliable
      · rw [idle] at running
        cases running
      · exact absurd reliable unreliable
    obtain ⟨blames_iff, told⟩ := blames_of_plan tied.linked_stored stored
      (ended.imp_left fun ⟨fault, plans, fails, _⟩ => ⟨fault, plans, fails⟩)
    refine ⟨fun _ _ => blames_iff.2, fun id time creation fails => ⟨?_, told id time creation fails⟩⟩
    obtain ⟨-, -, -, same⟩ := ended.resolve_right fun quiet => quiet.2 ⟨_, _, _, fails⟩
    exact same

/-- A link is enrolled, and then its transport is said to be faster: nothing blames the clock. -/
theorem clock_blamed_shorter :
    let post := Peer.postAt ⟨.setLatency "tcp" 20 .empty, .clear⟩ 0
    let acts : List (Nat × Act) := [(1000, .start),
      (40000000, .enroll ⟨⟨1, "tcp"⟩, 0, .alice⟩ 20 .wiped),
      (40000000, .react (.transportUp "tcp" 10))]
    let s := (run bare acts ⟨.stopped .standard 0, post⟩).atTime 50000000
    s.core.secrets.length = 3 ∧ ∀ r t, (rotate bare).Ends s r t → ¬ BlamesClock r := by
  intro post acts s
  refine ⟨by decide +kernel, fun r t ends blames => ?_⟩
  have bound : ∀ act ∈ acts, act.2.Bound fun _ => ⟨0, .alice, .wiped⟩ := by
    simp [acts, Act.Bound, Origin.link]
  have present : ∀ x ∈ s.core.secrets, s.core.latencies[x.id.transport]? = some 10 := by
    decide +kernel
  have shortest (transport : Transport) (earlier : Nat) (use : Used post acts transport earlier) :
      10 ≤ earlier := by
    rcases use with recorded | ⟨act, mem, brought⟩
    · obtain ⟨-, rfl⟩ := latencies_postAt_iff.1 recorded
      decide
    · simp only [acts, List.mem_cons, List.not_mem_nil, or_false] at mem
      rcases mem with rfl | rfl | rfl <;> cases brought <;> decide
  obtain ⟨blames_iff, -⟩ := (clock_blamed_iff rfl bound (by decide)).1 r t ends
  obtain ⟨x, mem, latency, earlier, -, -, known, use, lt, -⟩ := blames_iff.1 blames
  obtain rfl := Option.some.inj ((present x mem).symm.trans known)
  exact absurd (shortest _ earlier use) (Nat.not_le.2 lt)

/-- A link is enrolled. Then its transport is said to be slower, and the next rotation blames the clock,
though it reads the same. So does a start with a latency in the vault that is longer than that of the
enrollment. -/
theorem clock_blamed_longer :
    let enroll : Nat × Act := (40000000, .enroll ⟨⟨1, "tcp"⟩, 0, .alice⟩ 20 .wiped)
    let acts : List (Nat × Act) := [enroll, (40000000, .react (.transportUp "tcp" 3600040))]
    let station (latency : Nat) : Station :=
      ⟨.stopped .standard 0, Peer.postAt ⟨.setLatency "tcp" latency .empty, .clear⟩ 0⟩
    let s := (run bare acts (station 20)).atTime 40000000
    let t := (run bare [enroll] (station 3600040)).atTime 40000000
    (∀ act ∈ acts, act.2.Bound fun _ => ⟨0, .alice, .wiped⟩) ∧
      ((rotate bare).toExcept s).1 = .error (.clockBehind ⟨⟨1, "tcp"⟩, 11⟩ 40000000 64800360) ∧
      ((start bare).toExcept t).1 = .error (.clockBehind ⟨⟨1, "tcp"⟩, 11⟩ 40000000 64800360) := by
  intro enroll acts station s t
  exact ⟨by simp [acts, enroll, Act.Bound, Origin.link], by decide +kernel, by decide +kernel⟩

end Station

end SealedStream
