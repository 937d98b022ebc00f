import SealedStream.Proofs.Station.Enrolling

/-!
# What holds of all secrets

A secret comes to a station with an enrollment, or a rollover derives it for an empty place. Either way
its period is one of the three around the current one, reckoned with a latency that is known then. What
holds of the identities around the current period therefore holds of all that are stored and held.

## Main definitions

* `Station.Core.Everywhere` — a property of all stored and held secrets.
* `Station.Core.Knows` — the latencies that the keyring and its vault know.
* `Station.Came` — a period has come, with one of some latencies.

## Main statements

* `Rollover.Linked.near_of_created` — where derived secrets stand.
* `Station.Core.Everywhere.effect`, `Station.Core.Knows.effect` — what acts preserve.
-/

namespace SealedStream

open Std

variable {suite : Suite} {origin : Pair → Origin} {now later tolerance : Nat}

/-- A derived secret is one of the three around the current period of its pair. -/
theorem Rollover.Linked.near_of_created {latencies : ExtTreeMap Transport Nat}
    {secrets : List PeriodSecret} {r : Rollover} (linked : Linked origin secrets)
    (plans : plan suite now latencies tolerance secrets = .ok r) {x : PeriodSecret}
    (mem : x ∈ r.created) :
    ∃ latency current, latencies[x.pair.transport]? = some latency ∧
      Schedule.periodAt (origin x.pair).epoch (Schedule.interval latency tolerance) now =
        some current ∧ Near current x.period := by
  obtain ⟨timely, rfl⟩ := plan_eq_ok plans
  obtain ⟨f, there, mem⟩ := List.mem_flatMap.1 mem
  obtain ⟨pair, there⟩ := mem_values.1 there
  obtain ⟨latency, known, any, rfl⟩ := (filled_eq_some_iff timely).1 there
  rcases linked.filling_cases suite timely known any with eq | ⟨current, created, at_now, eq, links⟩
  · rw [eq] at mem
    cases mem
  rw [eq] at mem
  obtain ⟨link, turn, -, target⟩ := links x mem
  obtain rfl : x.pair = pair := congrArg Link.toPair link
  exact ⟨latency, current, known, at_now,
    near_iff_exists_offset.2 ⟨turn, Turn.eq_add_offset_of_period target⟩⟩

namespace Station

open Rollover (Near)

variable {s : Station} {act : Act} {report : Report} {c : Core} {p : PeriodId → Prop}
  {used : Transport → Nat → Prop}

/-! ## Held secrets -/

theorem not_mem_secrets_empty (x : PeriodSecret) :
    x ∉ (∅ : ExtTreeMap Pair Trio).values.flatMap Trio.secrets := by
  rw [mem_heldSecrets]
  simp

theorem mem_secrets_insert {held : ExtTreeMap Pair Trio} {pair : Pair} {trio : Trio}
    {x : PeriodSecret} (mem : x ∈ (held.insert pair trio).values.flatMap Trio.secrets) :
    x ∈ trio.secrets ∨ x ∈ held.values.flatMap Trio.secrets := by
  obtain ⟨pair', trio', turn, there, stands⟩ := mem_heldSecrets.1 mem
  rw [ExtTreeMap.getElem?_insert] at there
  split at there
  · cases there
    exact .inl (Trio.mem_secrets.2 ⟨turn, stands⟩)
  · exact .inr (mem_heldSecrets.2 ⟨pair', trio', turn, there, stands⟩)

theorem mem_secrets_filter {held : ExtTreeMap Pair Trio} {keep : Pair → Bool} {x : PeriodSecret}
    (mem : x ∈ (held.filter fun pair _ => keep pair).values.flatMap Trio.secrets) :
    x ∈ held.values.flatMap Trio.secrets := by
  obtain ⟨pair, trio, turn, there, stands⟩ := mem_heldSecrets.1 mem
  rw [ExtTreeMap.getElem?_filter', Option.filter_eq_some_iff] at there
  exact mem_heldSecrets.2 ⟨pair, trio, turn, there.1, stands⟩

/-- What a rollover holds was given or derived. -/
theorem mem_secrets_rolled {latencies : ExtTreeMap Transport Nat} {secrets : List PeriodSecret}
    {r : Rollover} (linked : Rollover.Linked origin secrets)
    (plans : Rollover.plan suite now latencies tolerance secrets = .ok r) {x : PeriodSecret}
    (mem : x ∈ r.held.values.flatMap Trio.secrets) : x ∈ secrets ∨ x ∈ r.created := by
  obtain ⟨pair, trio, turn, there, stands⟩ := mem_heldSecrets.1 mem
  exact (linked.of_held plans (show (r.held[pair]?).bind (·.get turn) = some x by
    rw [there]
    exact stands)).2.1

/-! ## Latencies -/

/-- The latency that an act brings, and its transport. -/
def Act.latency? : Act → Option (Transport × Nat)
  | .enroll link latency _ => some (link.transport, latency)
  | .react (.transportUp transport latency) => some (transport, latency)
  | _ => none

/-- The keyring and its vault know no other latencies. -/
structure Core.Knows (used : Transport → Nat → Prop) (c : Core) : Prop where
  vault : ∀ (transport : Transport) (latency : Nat), c.vault.latencies[transport]? = some latency →
    used transport latency
  keyring : ∀ (transport : Transport) (latency : Nat), c.latencies[transport]? = some latency →
    used transport latency

/-- No latency comes to be known but one that an act brings. -/
theorem Core.Knows.effect (knows : s.core.Knows used)
    (brings : ∀ x ∈ act.latency?, used x.1 x.2) (effect : Effect suite now s act report c) :
    c.Knows used := by
  have insert (transport : Transport) (latency : Nat) (use : used transport latency)
      (transport' : Transport) (latency' : Nat)
      (there : (s.core.latencies.insert transport latency)[transport']? = some latency') :
      used transport' latency' := by
    rw [ExtTreeMap.getElem?_insert] at there
    split at there
    · rename_i same
      obtain rfl := LawfulEqCmp.compare_eq_iff_eq.1 same
      exact Option.some.inj there ▸ use
    · exact knows.keyring _ _ there
  have erase (latencies : ExtTreeMap Transport Nat) (transport transport' : Transport) (latency : Nat)
      (there : (latencies.erase transport)[transport']? = some latency) :
      latencies[transport']? = some latency := by
    rw [ExtTreeMap.getElem?_erase] at there
    exact (Option.ite_none_left_eq_some.1 there).2
  cases effect with
  | enrolled => exact ⟨knows.vault, insert _ _ (brings _ rfl)⟩
  | transportUp => exact ⟨knows.vault, insert _ _ (brings _ rfl)⟩
  | started => exact ⟨knows.vault, knows.vault⟩
  | stopped | replaced | restarted => exact ⟨knows.vault, by simp⟩
  | transportGone reached =>
    refine ⟨?_, fun _ _ there => knows.keyring _ _ (erase _ _ _ _ there)⟩
    rcases reached with rfl | rfl
    · exact knows.vault
    · exact fun _ _ there => knows.vault _ _ (erase _ _ _ _ there)
  | kept | enrolling | starting | startRefused | rotating | rotated | contactGone | issued
  | recognized => exact ⟨knows.vault, knows.keyring⟩

/-! ## Identities -/

/-- The identities of all stored and held secrets have a property. -/
structure Core.Everywhere (p : PeriodId → Prop) (c : Core) : Prop where
  rows : Vault.RowsOf (fun s => p s.id) c.vault.rows
  held : ∀ x ∈ c.secrets, p x.id

theorem everywhere_stopped {settings : Settings} {serial : Nat} {post : Post}
    (blank : post.vault.vault.rows = ∅) : (core ⟨.stopped settings serial, post⟩).Everywhere p where
  rows := by
    intro id s there
    simp [core, blank] at there
  held x mem := absurd mem (not_mem_secrets_empty x)

/-- An act leaves no secret but those from before and those around the current period. -/
theorem Core.Everywhere.effect (every : s.core.Everywhere p)
    (stored : Rollover.Linked origin s.core.vault.rows.values)
    (held : Rollover.Linked origin s.core.secrets) (knows : s.core.Knows used)
    (brings : ∀ x ∈ act.latency?, used x.1 x.2)
    (own : ∀ link latency handshake, act = .enroll link latency handshake →
      link = (origin link.toPair).link link.toPair)
    (near : ∀ (pair : Pair) (latency current period : Nat), used pair.transport latency →
      Schedule.periodAt (origin pair).epoch (Schedule.interval latency s.core.tolerance) now =
        some current → Near current period → p ⟨pair, period⟩)
    (effect : Effect suite now s act report c) : c.Everywhere p := by
  have enrolled (link : Link) (latency : Nat) (handshake : Key) (current : Nat)
      (enrolls : act = .enroll link latency handshake)
      (at_now : Schedule.periodAt link.epoch (Schedule.interval latency s.core.tolerance) now =
        some current) :
      ∀ x ∈ liveSecrets suite link current handshake, p x.id := by
    intro x mem
    obtain ⟨period, around, rfl⟩ := (mem_liveSecrets (Schedule.pos_of_periodAt at_now)).1 mem
    have epoch : link.epoch = (origin link.toPair).epoch :=
      congrArg Link.epoch (own link latency handshake enrolls)
    rw [epoch] at at_now
    exact near link.toPair latency current period (brings _ (by rw [enrolls]; rfl)) at_now around
  have created {latencies : ExtTreeMap Transport Nat} {secrets : List PeriodSecret} {r : Rollover}
      (known : ∀ (transport : Transport) (latency : Nat), latencies[transport]? = some latency →
        used transport latency) (linked : Rollover.Linked origin secrets)
      (plans : Rollover.plan suite now latencies s.core.tolerance secrets = .ok r) :
      ∀ x ∈ r.created, p x.id := by
    intro x mem
    obtain ⟨latency, current, there, at_now, around⟩ := linked.near_of_created plans mem
    exact near x.pair latency current x.period (known _ _ there) at_now around
  have rows := effect.rowsOf (p := fun x => p x.id) (fun _ _ _ => id) every.rows enrolled
    (fun r plans => created knows.vault stored plans) (fun r plans => created knows.keyring held plans)
  refine ⟨rows, ?_⟩
  cases effect with
  | @enrolled link latency current handshake rows' _ _ at_now =>
    intro x mem
    rcases mem_secrets_insert mem with new | old
    · obtain ⟨y, derived, rfl⟩ : ∃ y ∈ liveSecrets suite link current handshake,
          storedForm rows'.values y = x := List.mem_map.1 new
      rw [id_storedForm]
      exact enrolled link latency handshake current rfl at_now y derived
    · exact every.held x old
  | started plans =>
    intro x mem
    rcases mem_secrets_rolled stored plans mem with given | new
    · obtain ⟨id, there⟩ := mem_values.1 given
      exact (every.rows id x there).2
    · exact created knows.vault stored plans x new
  | rotated quiet plans =>
    intro x mem
    rcases mem_secrets_rolled held plans mem with given | new
    · exact every.held x given
    · exact created knows.keyring held plans x new
  | contactGone | transportGone => exact fun x mem => every.held x (mem_secrets_filter mem)
  | stopped | replaced | restarted => exact fun x mem => absurd mem (not_mem_secrets_empty x)
  | _ => exact every.held

/-! ## Periods that have come -/

/-- With one of the latencies, the period is at most the one after the current one. -/
def Came (origin : Pair → Origin) (used : Transport → Nat → Prop) (tolerance now : Nat)
    (id : PeriodId) : Prop :=
  ∃ latency current, used id.transport latency ∧
    Schedule.periodAt (origin id.toPair).epoch (Schedule.interval latency tolerance) now =
      some current ∧ id.period ≤ current + 1

/-- The periods around the current one have come, and they have later on. -/
theorem came_of_near {pair : Pair} {latency current period : Nat} (use : used pair.transport latency)
    (at_now : Schedule.periodAt (origin pair).epoch (Schedule.interval latency tolerance) now =
      some current) (le : now ≤ later) (near : Near current period) :
    Came origin used tolerance later ⟨pair, period⟩ := by
  have pos := Schedule.interval_pos_of_periodAt at_now
  obtain ⟨after, cycle⟩ := (Schedule.periodAt_eq_some_iff pos).1 at_now
  have mono : Schedule.cycle (origin pair).epoch (Schedule.interval latency tolerance) now ≤
      Schedule.cycle (origin pair).epoch (Schedule.interval latency tolerance) later :=
    Schedule.cycle_mono pos le
  obtain ⟨current', at_later, cycle'⟩ := Schedule.exists_periodAt pos
    ((Schedule.cycle_pos_iff pos).2 (after.trans le))
  refine ⟨latency, current', use, at_later, ?_⟩
  unfold Near at near
  change period ≤ current' + 1
  omega

end Station

end SealedStream
