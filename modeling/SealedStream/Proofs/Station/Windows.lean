import SealedStream.Proofs.Directory
import SealedStream.Proofs.SeenWindow
import SealedStream.Proofs.Station.Lifetime

/-!
# Streams of the peer are answered once

The windows of a secret know all the streams that were answered under it. A secret that was listed once
is held whenever its pair is, or it is dead, so a rollover never lists it afresh; when it is listed
again, its window comes from its row. Only a secret that the directory refused is listed with the
window that its held copy has had since then. So the one stream that may be answered again is one
that was answered while its secret waited to be listed.

## Main definitions

* `Listing.Genuine` — a listing tells the link and the key of its identity.
* `Station.Tracked` — a secret is stored and held where it should be, or it is dead.
* `Station.Accounted` — what is listed or waits to be listed is genuine and tracked.
* `Station.Known` — a stream is known to all windows of its secret.
* `Station.Afresh` — what is known of a secret that an act lists.

## Main statements

* `Station.Tracked.step`, `Station.Known.step` — no act forgets.
* `Station.Regular.pairwise_log_answered` — only a stream whose secret waits is answered twice.
* `Station.Regular.pairwise_answered` — if the directory refuses nothing, no stream is.
-/

namespace SealedStream

open Std

/-! ## Listings -/

/-- The listing tells the link and the key that belong to an identity. -/
structure Listing.Genuine (suite : Suite) (origin : Pair → Origin) (id : PeriodId) (l : Listing) :
    Prop where
  link : l.link = (origin id.toPair).link id.toPair
  key : l.key = suite.chain (origin id.toPair).handshake id.period

theorem PeriodSecret.Genuine.listing {suite : Suite} {origin : Pair → Origin} {s : PeriodSecret}
    (real : s.Genuine suite origin) : (Listing.ofSecret suite s).Genuine suite origin s.id :=
  ⟨real.link, real.key⟩

section Listings

variable {suite : Suite} {d : Directory} {id : PeriodId} {l : Listing}

theorem Registry.listings_of_advance {advanced : PeriodId} {listing : Listing} {tag : Tag}
    {number : Nat} {window : SeenWindow} {listed : List (Nat × Tag)}
    (there : (advance d advanced listing tag number window listed).listings[id]? = some l) :
    (advanced = id ∧ ∃ tags, l = { listing with window, tags }) ∨ d.listings[id]? = some l := by
  rw [getElem?_listings_advance] at there
  split at there
  · rename_i own
    cases there
    exact .inl ⟨own, _, rfl⟩
  · exact .inr there

namespace Station

theorem listings_of_unlistAllIn {ids : List PeriodId}
    (there : (unlistAllIn ids d).listings[id]? = some l) : d.listings[id]? = some l := by
  rw [unlistAllIn, Directory.getElem?_listings_removeAll] at there
  grind

theorem listings_of_listAllIn {secrets : List PeriodSecret}
    (there : (listAllIn suite secrets d).listings[id]? = some l) :
    (∃ s ∈ secrets, s.id = id ∧ l = .ofSecret suite s) ∨ d.listings[id]? = some l := by
  rw [listAllIn, Directory.getElem?_listings_addAll, Option.or_eq_some_iff] at there
  rcases there with made | ⟨-, there⟩
  · obtain ⟨s, found, rfl⟩ := Option.map_eq_some_iff.1 made
    exact .inl ⟨s, List.mem_reverse.1 (List.mem_of_find?_eq_some found),
      by simpa using List.find?_some found, rfl⟩
  · exact .inr there

end Station

end Listings

namespace Station

variable {suite : Suite} {origin : Pair → Origin} {recorded : ExtTreeMap Transport Nat}
  {tolerance now later : Nat} {id : PeriodId} {t : Station} {act : Act} {report : Report} {c : Core}

/-! ## Secrets that were listed -/

/-- The secret has begun. It is stored, or it is dead; where its pair is held it is held as well, or it
is dead. -/
structure Tracked (origin : Pair → Origin) (recorded : ExtTreeMap Transport Nat) (now : Nat) (c : Core)
    (id : PeriodId) : Prop where
  begun : Begun origin recorded c.tolerance now id
  stored : id ∉ c.vault.rows → Expired origin recorded c.tolerance now id
  held : ∀ trio : Trio, c.held[id.toPair]? = some trio →
    (∃ turn x, trio.get turn = some x ∧ x.id = id) ∨ Expired origin recorded c.tolerance now id

theorem Tracked.mono (tracked : Tracked origin recorded now c id)
    (positive : Positive recorded c.tolerance) (le : now ≤ later) :
    Tracked origin recorded later c id where
  begun := tracked.begun.mono positive le
  stored absent := (tracked.stored absent).mono positive le
  held trio there := (tracked.held trio there).imp_right fun dead => dead.mono positive le

/-- A secret that a rollover is given is held afterwards, or it is dead. -/
theorem held_or_expired {latencies : ExtTreeMap Transport Nat} {secrets : List PeriodSecret}
    {r : Rollover}
    (sub : ∀ (transport : Transport) (latency : Nat), latencies[transport]? = some latency →
      recorded[transport]? = some latency)
    (planned : Rollover.Planned suite origin now latencies tolerance secrets r) {x : PeriodSecret}
    (mem : x ∈ secrets) (known : ∃ latency, latencies[x.pair.transport]? = some latency) :
    (∃ turn, (r.held[x.pair]?).bind (·.get turn) = some x) ∨
      Expired origin recorded tolerance now x.id := by
  obtain ⟨latency, known⟩ := known
  have at_now : Rollover.cycle? origin now latencies tolerance x.pair =
      some (Schedule.cycle (origin x.pair).epoch (Schedule.interval latency tolerance) now) := by
    rw [Rollover.cycle?, known, Option.map_some]
  have timely := planned.timely x mem _ at_now
  by_cases dead : (x.period : Int) + 2 ≤
      Schedule.cycle (origin x.pair).epoch (Schedule.interval latency tolerance) now
  · exact .inr ⟨_, cycle?_of_sub sub at_now, dead⟩
  · obtain ⟨turn, place⟩ := Turn.exists_offset (by omega) (by omega : (x.period : Int) -
      Schedule.cycle (origin x.pair).epoch (Schedule.interval latency tolerance) now ≤ 1)
    exact .inl ⟨turn, (planned.get_held x.pair turn x).2
      ⟨rfl, .inl mem, _, at_now, by omega⟩⟩

/-- Enrolling holds the three periods around the current one. -/
theorem held_of_near {rows : ExtTreeMap PeriodId PeriodSecret} (pair : Pair) {current period : Nat}
    (pos : 0 < current) (genuine : Vault.GenuineRows suite origin rows)
    (near : Rollover.Near current period) :
    ∃ turn x, (trioOf ((around suite origin pair current).map (storedForm rows.values))).get turn =
      some x ∧ x.id = ⟨pair, period⟩ := by
  unfold Rollover.Near at near
  obtain ⟨turn, offset⟩ := Turn.exists_offset (by omega) (by omega : (period : Int) - current ≤ 1)
  obtain ⟨period', place, there⟩ := get_trioOf suite origin pair pos (storedForm rows.values) turn
  refine ⟨turn, _, there, ?_⟩
  rw [(storedForm_ofChain genuine _ period').1, show period' = period by omega]

/-- A tracked secret that a rollover is given is held afterwards if its pair is, unless it is dead. -/
theorem held_rolled {latencies : ExtTreeMap Transport Nat} {secrets : List PeriodSecret} {r : Rollover}
    (sub : ∀ (transport : Transport) (latency : Nat), latencies[transport]? = some latency →
      recorded[transport]? = some latency)
    (planned : Rollover.Planned suite origin now latencies tolerance secrets r)
    (given : (∃ x ∈ secrets, x.id = id) ∨ Expired origin recorded tolerance now id) {trio : Trio}
    (there : r.held[id.toPair]? = some trio) :
    (∃ turn x, trio.get turn = some x ∧ x.id = id) ∨ Expired origin recorded tolerance now id := by
  rcases given with ⟨x, mem, rfl⟩ | dead
  · rcases held_or_expired sub planned mem (known_held planned there) with ⟨turn, stands⟩ | dead
    · rw [show r.held[x.pair]? = some trio from there, Option.bind_some] at stands
      exact .inl ⟨turn, x, stands, rfl⟩
    · exact .inr dead
  · exact .inr dead

/-- A tracked secret of an enrolled pair is held afterwards, unless it is dead. -/
theorem Tracked.held_enrolled {link : Link} {latency current : Nat} {handshake : Key}
    {rows : ExtTreeMap PeriodId PeriodSecret}
    (step : Step suite origin recorded now t (.enroll link latency handshake) report c)
    (tracked : Tracked origin recorded now t.core id)
    (at_now : Schedule.periodAt link.epoch (Schedule.interval latency t.core.tolerance) now =
      some current)
    (genuine : Vault.GenuineRows suite origin rows) (own : link.toPair = id.toPair) :
    let secrets := (liveSecrets suite link current handshake).map (storedForm rows.values)
    (∃ turn x, (trioOf secrets).get turn = some x ∧ x.id = id) ∨
      Expired origin recorded t.core.tolerance now id := by
  have pos := Schedule.pos_of_periodAt at_now
  have at_cycle := Steady.cycle?_enrolled step.positive step.follows at_now
  obtain ⟨c, hc, begun⟩ := tracked.begun
  rw [← own, at_cycle, Option.some.injEq] at hc
  subst hc
  by_cases dead : (id.period : Int) + 2 ≤ current
  · exact .inr ⟨current, own ▸ at_cycle, dead⟩
  obtain ⟨turn, x, stands, named⟩ := held_of_near link.toPair pos genuine
    (by unfold Rollover.Near; omega : Rollover.Near current id.period)
  rw [← liveSecrets_of_follows step.follows pos] at stands
  exact .inl ⟨turn, x, stands, named.trans (by rw [own])⟩

/-- No act loses track of a secret. -/
theorem Tracked.step (step : Step suite origin recorded now t act report c)
    (tracked : Tracked origin recorded now t.core id) : Tracked origin recorded now c id := by
  have tolerance := step.effect.tolerance_eq
  have sound := step.before.sound
  refine ⟨tolerance ▸ tracked.begun, ?_, ?_⟩
  · intro absent
    rw [tolerance]
    by_cases before : id ∈ t.core.vault.rows
    · exact step.carried.gone id before absent
    · exact tracked.stored before
  rw [tolerance]
  intro trio there
  cases step.effect with
  | enrolled at_now reached =>
    have genuine := sound.genuineRows_enrolled step.follows (Schedule.pos_of_periodAt at_now)
      (.inr reached)
    rw [ExtTreeMap.getElem?_insert] at there
    split at there
    · rename_i own
      cases there
      exact tracked.held_enrolled step at_now genuine (LawfulEqCmp.compare_eq_iff_eq.1 own)
    · exact tracked.held trio there
  | started plans =>
    refine held_rolled sound.recorded (sound.planned_stored step.fits plans) ?_ there
    by_cases stored : id ∈ t.core.vault.rows
    · have row := ExtTreeMap.getElem?_eq_some_getElem stored
      exact .inl ⟨_, mem_values.2 ⟨id, row⟩, (sound.rows id _ row).1⟩
    · exact .inr (tracked.stored stored)
  | rotated quiet plans =>
    have planned := sound.planned_held step.fits plans
    obtain ⟨p, held⟩ := planned.hasPeriod_of_held there
    obtain ⟨trio', there', -⟩ := (hasPeriod_held sound.held).1 held
    refine held_rolled sound.latencies planned ((tracked.held trio' there').imp_left ?_) there
    rintro ⟨turn, x, stands, named⟩
    exact ⟨x, mem_heldSecrets.2 ⟨id.toPair, trio', turn, there', stands⟩, named⟩
  | contactGone => exact step.keeps.elim
  | transportGone => exact step.keeps.elim
  | stopped | replaced | restarted => simp at there
  | _ => exact tracked.held trio there

/-! ## Windows -/

/-- A stream is known to all windows of its secret: the listed one, the one in its row, and that of a
held copy which waits to be listed. -/
structure Known (origin : Pair → Origin) (recorded : ExtTreeMap Transport Nat) (id : PeriodId)
    (stream now : Nat) (c : Core) : Prop where
  tracked : Tracked origin recorded now c id
  listings : ∀ l, c.directory.listings[id]? = some l → l.window.Seen stream
  rows : ∀ row, c.vault.rows[id]? = some row → row.incoming.Seen stream
  waiting : id ∈ c.unlisted → ∀ x ∈ c.secrets, x.id = id → x.incoming.Seen stream

/-- What is listed is genuine and tracked, and what waits to be listed is tracked. -/
structure Accounted (suite : Suite) (origin : Pair → Origin) (recorded : ExtTreeMap Transport Nat)
    (now : Nat) (c : Core) : Prop where
  genuine : ∀ (id : PeriodId) (listing : Listing), c.directory.listings[id]? = some listing →
    listing.Genuine suite origin id
  tracked : ∀ (id : PeriodId) (listing : Listing), c.directory.listings[id]? = some listing →
    Tracked origin recorded now c id
  waiting : ∀ id ∈ c.unlisted, Tracked origin recorded now c id

/-- A keyring that was never started has nothing to account for where nothing is listed. -/
theorem accounted_stopped {settings : Settings} {serial : Nat} {post : Post}
    (blank : post.directory.listings = ∅) :
    Accounted suite origin recorded now (core ⟨.stopped settings serial, post⟩) where
  genuine id listing there := by simp [core, blank] at there
  tracked id listing there := by simp [core, blank] at there
  waiting id waits := absurd waits ExtTreeSet.not_mem_empty

/-- The directory takes all secrets, and none waits to be listed. -/
structure Unopposed (c : Core) : Prop where
  willing : c.Willing
  none_waiting : c.unlisted = ∅

/-- Everything is accounted for, and the directory takes all secrets. -/
structure Listed (suite : Suite) (origin : Pair → Origin) (recorded : ExtTreeMap Transport Nat)
    (now : Nat) (c : Core) : Prop extends Accounted suite origin recorded now c, Unopposed c

/-! ## What is listed afresh -/

/-- A stream is answered by marking it in the window of its listing, and the row gets that window. -/
theorem Effect.of_answered {ticket : Ticket}
    (effect : Effect suite now t act (.answered id ticket) c) :
    ∃ listing window entered, t.core.directory.listings[id]? = some listing ∧
      listing.window.mark? ticket.stream = some (window, entered) ∧
      (ticket.key = listing.key ∧ ticket.side = listing.link.side) ∧
      (∀ l, c.directory.listings[id]? = some l → ∃ tags, l = { listing with window, tags }) ∧
      ∀ row, c.vault.rows[id]? = some row → row.incoming = window := by
  cases effect with
  | @recognized bytes _ _ window directory recognizes =>
    obtain ⟨listing, entered, tag, listed, -, marks, same, rfl⟩ := recognizes.listed
    refine ⟨listing, window, entered, listed, marks, ⟨by rw [same], by rw [same]⟩, ?_, ?_⟩
    · intro l there
      simp only [Registry.advance, ExtTreeMap.getElem?_insert_self, Option.some.injEq] at there
      exact ⟨_, there.symm⟩
    · intro row there
      dsimp only at there
      unfold Vault.withWindow at there
      cases kept : t.core.vault.rows[id]? with
      | none => simp [kept] at there
      | some row' =>
        simp only [kept, Option.elim_some, ExtTreeMap.getElem?_insert_self, Option.some.injEq] at there
        rw [← there]
  | rotated quiet => simp at quiet

section Rolled

variable {latencies : ExtTreeMap Transport Nat} {secrets : List PeriodSecret} {r : Rollover}
  (sub : ∀ (transport : Transport) (latency : Nat), latencies[transport]? = some latency →
    recorded[transport]? = some latency)
  (planned : Rollover.Planned suite origin now latencies tolerance secrets r)
include sub planned

/-- Derived secrets are held. -/
theorem held_of_created (positive : Positive recorded tolerance) {x : PeriodSecret}
    (mem : x ∈ r.created) : ∃ turn, (r.held[x.pair]?).bind (·.get turn) = some x := by
  obtain ⟨-, ⟨latency, current, turn, known, at_now, target⟩, -, -⟩ := (planned.mem_created x).1 mem
  have cycle := cycle?_eq (fun _ _ h => h) (fun _ _ h => positive _ _ (sub _ _ h)) known at_now
  exact ⟨turn, (planned.get_held x.pair turn x).2
    ⟨rfl, .inr mem, current, cycle, Turn.eq_add_offset_of_period target⟩⟩

/-- What is held after a rollover is tracked. -/
theorem tracked_rolled {rows : ExtTreeMap PeriodId PeriodSecret}
    (genuine : Vault.GenuineRows suite origin rows)
    (known : ∀ s ∈ secrets, ∃ latency, latencies[s.pair.transport]? = some latency)
    {pair : Pair} {turn : Turn} {x : PeriodSecret}
    (stands : (r.held[pair]?).bind (·.get turn) = some x) (there : x.id ∈ rows ∨ x ∈ r.created)
    (same : c.tolerance = tolerance) (rows_eq : c.vault.rows = persisted r rows)
    (held_eq : c.held = r.held) : Tracked origin recorded now c x.id := by
  obtain ⟨rfl, -⟩ := (planned.get_held pair turn x).1 stands
  obtain ⟨trio, there', stands'⟩ := Option.bind_eq_some_iff.1 stands
  have live := live_held sub planned there' stands'
  refine ⟨same ▸ live.begun, fun absent => absurd ?_ absent, fun trio held => .inl ?_⟩
  · rw [rows_eq]
    refine (mem_persisted planned genuine).2 ⟨there.imp_right fun mem => ⟨x, mem, rfl⟩, ?_⟩
    exact fun retired => live.not_expired (expired_retired sub planned known retired)
  · rw [held_eq] at held
    rw [show r.held[x.pair]? = some trio from held, Option.bind_some] at stands
    exact ⟨turn, x, stands, rfl⟩

omit sub in
/-- What is held after a rollover was held before or is derived. -/
theorem mem_of_rolled {x : PeriodSecret} (mem : x ∈ r.held.values.flatMap Trio.secrets) :
    x ∈ secrets ∨ x ∈ r.created := by
  obtain ⟨pair, trio, turn, there, stands⟩ := mem_heldSecrets.1 mem
  exact ((planned.get_held pair turn x).1 (by rw [there]; exact stands)).2.1

end Rolled

/-- The window of a secret is that of a row, no stream could have been answered under the secret, or it
is a held copy that waits to be listed. -/
def Sourced (origin : Pair → Origin) (recorded : ExtTreeMap Transport Nat) (now : Nat) (t : Station)
    (c : Core) (x : PeriodSecret) : Prop :=
  (∃ row, (t.core.vault.rows[x.id]? = some row ∨ c.vault.rows[x.id]? = some row) ∧
    x.incoming = row.incoming) ∨
  ¬ Tracked origin recorded now t.core x.id ∨
  x.id ∈ t.core.unlisted ∧ x ∈ t.core.secrets

/-- A secret that an act lists is genuine, and it is tracked from then on. -/
structure Afresh (suite : Suite) (origin : Pair → Origin) (recorded : ExtTreeMap Transport Nat)
    (now : Nat) (t : Station) (c : Core) (x : PeriodSecret) : Prop where
  genuine : x.Genuine suite origin
  tracked : Tracked origin recorded now c x.id
  sourced : Sourced origin recorded now t c x

/-- What enrolling lists was stored just before. -/
theorem Step.afresh_enrolled {link : Link} {latency current : Nat} {handshake : Key}
    {x : PeriodSecret}
    (step : Step suite origin recorded now t (.enroll link latency handshake) report c)
    (at_now : Schedule.periodAt link.epoch (Schedule.interval latency t.core.tolerance) now =
      some current)
    (reached :
      let derived := liveSecrets suite link current handshake
      c.vault.rows = (staleIds t.keyring link.toPair derived).foldl (·.erase ·)
        (derived.foldl Vault.put t.core.vault.rows))
    (held : c.held = t.core.held.insert link.toPair
      (trioOf ((liveSecrets suite link current handshake).map (storedForm c.vault.rows.values))))
    (mem : x ∈ (liveSecrets suite link current handshake).map (storedForm c.vault.rows.values)) :
    x.pair = link.toPair ∧ Afresh suite origin recorded now t c x := by
  have sound := step.before.sound
  have pos := Schedule.pos_of_periodAt at_now
  have genuine := sound.genuineRows_enrolled step.follows pos (.inr reached)
  rw [liveSecrets_of_follows step.follows pos] at mem held
  obtain ⟨y, derived, rfl⟩ := List.mem_map.1 mem
  obtain ⟨own, near⟩ := (exists_mem_around pos).1 ⟨y, derived, rfl⟩
  have stored := mem_enrolled_of_near sound step.follows pos (.inr reached) near
  rw [← own] at stored
  have row := ExtTreeMap.getElem?_eq_some_getElem stored
  obtain ⟨row_id, row_real⟩ := genuine _ _ row
  have form : storedForm c.vault.rows.values y = c.vault.rows[y.id] := by
    rw [storedForm_values genuine.rowsOf, row, Option.getD_some]
  rw [form]
  refine ⟨(congrArg PeriodId.toPair row_id).trans own, row_real, ?_,
    .inl ⟨_, .inr (row_id ▸ row), rfl⟩⟩
  rw [row_id]
  refine ⟨?_, fun absent => absurd stored absent, ?_⟩
  · have live := Steady.live_around step.positive step.follows at_now near
    rw [← own, ← step.effect.tolerance_eq] at live
    exact live.begun
  · intro trio there
    rw [held, own, ExtTreeMap.getElem?_insert_self, Option.some.injEq] at there
    subst there
    obtain ⟨turn, z, stands, named⟩ := held_of_near link.toPair pos genuine near
    exact .inl ⟨turn, z, stands, named.trans (by rw [← own])⟩

/-- What a start lists was stored, or it was derived, and then it was neither stored nor dead. -/
theorem Step.afresh_started {r : Rollover} {x : PeriodSecret}
    (step : Step suite origin recorded now t act report c)
    (plans : Rollover.plan suite now t.core.vault.latencies t.core.tolerance
      t.core.vault.rows.values = .ok r)
    (rows : c.vault.rows = persisted r t.core.vault.rows) (held : c.held = r.held)
    (mem : x ∈ r.held.values.flatMap Trio.secrets) : Afresh suite origin recorded now t c x := by
  have sound := step.before.sound
  have planned := sound.planned_stored step.fits plans
  have real := step.after.sound.genuine_held x (held ▸ mem)
  obtain ⟨pair, trio, turn, there, stands⟩ := mem_heldSecrets.1 mem
  replace stands : (r.held[pair]?).bind (·.get turn) = some x := by rw [there]; exact stands
  have tracked (kept : x.id ∈ t.core.vault.rows ∨ x ∈ r.created) :=
    tracked_rolled sound.recorded planned sound.rows step.before.known_stored stands kept
      step.effect.tolerance_eq rows held
  rcases mem_of_rolled planned mem with mem | created
  · obtain ⟨id, row⟩ := mem_values.1 mem
    obtain rfl := (sound.rows id x row).1
    refine ⟨real, tracked (.inl ?_), .inl ⟨x, .inl row, rfl⟩⟩
    simp [ExtTreeMap.mem_iff_isSome_getElem?, row]
  · refine ⟨real, tracked (.inr created), .inr (.inl ?_)⟩
    intro before
    refine (live_created sound.recorded step.positive planned created).not_expired
      (before.stored fun stored => ?_)
    have row := ExtTreeMap.getElem?_eq_some_getElem stored
    exact ((planned.mem_created x).1 created).2.2.2 _ (mem_values.2 ⟨x.id, row⟩)
      (sound.rows _ _ row).1

/-- What a rotation derives was neither held before nor dead. -/
theorem Step.afresh_rotated {r : Rollover} {x : PeriodSecret}
    (step : Step suite origin recorded now t act report c)
    (plans : Rollover.plan suite now t.core.latencies t.core.tolerance t.keyring.secrets = .ok r)
    (rows : c.vault.rows = persisted r t.core.vault.rows) (held : c.held = r.held)
    (created : x ∈ r.created) : Afresh suite origin recorded now t c x := by
  have sound := step.before.sound
  have planned := sound.planned_held step.fits plans
  obtain ⟨turn, stands⟩ := held_of_created sound.latencies planned step.positive created
  have real : x.Genuine suite origin := by
    rw [chained_created planned x created]
    exact PeriodSecret.genuine_ofChain ..
  refine ⟨real, tracked_rolled sound.latencies planned sound.rows
    step.before.known_held stands (.inr created) step.effect.tolerance_eq rows held,
    .inr (.inl fun before => ?_)⟩
  -- A secret before this one was held, but this one was not.
  obtain ⟨-, -, ⟨y, mem, own, -⟩, nobody⟩ := (planned.mem_created x).1 created
  obtain ⟨pair, trio, turn, there, stands⟩ := mem_heldSecrets.1 mem
  obtain ⟨first, row⟩ := sound.held pair trio there
  obtain rfl : pair = x.pair := (row turn y stands).1.symm.trans own
  rcases before.held trio there with ⟨turn', z, stands', named⟩ | dead
  · exact nobody z (mem_heldSecrets.2 ⟨_, trio, turn', there, stands'⟩) named
  · exact (live_created sound.latencies step.positive planned created).not_expired dead

/-- What a rotation offers to the directory is derived, or it waits to be listed. -/
theorem Step.afresh_offered {r : Rollover} {x : PeriodSecret}
    (step : Step suite origin recorded now t act report c)
    (accounted : Accounted suite origin recorded now t.core)
    (plans : Rollover.plan suite now t.core.latencies t.core.tolerance t.keyring.secrets = .ok r)
    (rows : c.vault.rows = persisted r t.core.vault.rows) (held : c.held = r.held)
    (mem : x ∈ pending r t.core.unlisted ++ r.created) : Afresh suite origin recorded now t c x := by
  have planned := step.before.sound.planned_held step.fits plans
  rcases List.mem_append.1 mem with waits | created
  · obtain ⟨mem, waits⟩ := List.mem_filter.1 waits
    rcases mem_of_rolled planned mem with before | created
    · have waits : x.id ∈ t.core.unlisted := by simpa using waits
      exact ⟨step.before.sound.genuine_held x before, (accounted.waiting x.id waits).step step,
        .inr (.inr ⟨waits, before⟩)⟩
    · exact step.afresh_rotated plans rows held created
  · exact step.afresh_rotated plans rows held created

/-- A listing was there before, belongs to the stream just answered, or is that of a secret listed
afresh. -/
theorem Step.listing_cases (step : Step suite origin recorded now t act report c)
    (accounted : Accounted suite origin recorded now t.core) {listing : Listing}
    (there : c.directory.listings[id]? = some listing) :
    t.core.directory.listings[id]? = some listing ∨ (∃ ticket, report = .answered id ticket) ∨
      ∃ x, x.id = id ∧ listing = .ofSecret suite x ∧ Afresh suite origin recorded now t c x := by
  cases step.effect with
  | enrolled at_now reached offered =>
    rcases listings_of_listAllIn there with ⟨x, mem, named, rfl⟩ | before
    · exact .inr (.inr ⟨x, named, rfl,
        (step.afresh_enrolled at_now reached rfl ((offered.mem_iff x).2 (.inl mem))).2⟩)
    · exact .inl (listings_of_unlistAllIn before)
  | startRefused => simp at there
  | started plans =>
    rcases listings_of_listAllIn there with ⟨x, mem, named, rfl⟩ | before
    · exact .inr (.inr ⟨x, named, rfl, step.afresh_started plans rfl rfl mem⟩)
    · exact .inl before
  | stopped | restarted => simp at there
  | rotating => exact .inl (listings_of_unlistAllIn there)
  | rotated quiet plans offered =>
    rcases listings_of_listAllIn there with ⟨x, mem, named, rfl⟩ | before
    · exact .inr (.inr ⟨x, named, rfl,
        step.afresh_offered accounted plans rfl rfl ((offered.mem_iff x).2 (.inl mem))⟩)
    · exact .inl (listings_of_unlistAllIn before)
  | contactGone => exact step.keeps.elim
  | transportGone => exact step.keeps.elim
  | @recognized bytes id' ticket window directory recognizes =>
    obtain ⟨listing', entered, tag, -, -, -, -, rfl⟩ := recognizes.listed
    rcases Registry.listings_of_advance there with ⟨rfl, -⟩ | before
    · exact .inr (.inl ⟨ticket, rfl⟩)
    · exact .inl before
  | _ => exact .inl there

/-- The window of a held copy that waits to be listed is as old as the wait, or it is that of a row. -/
theorem Step.waiting_cases (step : Step suite origin recorded now t act report c)
    {x : PeriodSecret} (held : x ∈ c.secrets) (waits : x.id ∈ c.unlisted) :
    Sourced origin recorded now t c x := by
  have sound := step.before.sound
  cases step.effect with
  | @enrolled link latency current handshake rows taken refused at_now reached offered =>
    obtain ⟨pair, trio, turn, there, stands⟩ := mem_heldSecrets.1 held
    rw [ExtTreeMap.getElem?_insert] at there
    split at there
    · cases there
      have mem : x ∈ (liveSecrets suite link current handshake).map (storedForm rows.values) := by
        cases turn <;> exact List.mem_of_getElem? stands
      exact (step.afresh_enrolled at_now reached rfl mem).2.sourced
    · rename_i other
      obtain ⟨first, aligned⟩ := sound.held pair trio there
      refine .inr (.inr ⟨?_, mem_heldSecrets.2 ⟨pair, trio, turn, there, stands⟩⟩)
      rcases mem_waiting.1 waits with ⟨before, -⟩ | ⟨y, mem, named⟩
      · exact before
      · -- Only secrets of the enrolled pair are refused.
        have own := (step.afresh_enrolled at_now reached rfl ((offered.mem_iff y).2 (.inr mem))).1
        have same : y.pair = x.pair := congrArg PeriodId.toPair named
        refine absurd ?_ other
        rw [LawfulEqCmp.compare_eq_iff_eq, ← own, same, (aligned turn x stands).1]
  | started plans => exact (step.afresh_started plans rfl rfl held).sourced
  | @rotated _ _ r taken refused quiet plans offered =>
    have planned := sound.planned_held step.fits plans
    rcases mem_of_rolled planned held with before | created
    · refine .inr (.inr ⟨?_, before⟩)
      have of_pending {y : PeriodSecret} (mem : y ∈ pending r t.core.unlisted)
          (named : y.id = x.id) : x.id ∈ t.core.unlisted :=
        named ▸ by simpa using (List.mem_filter.1 mem).2
      rcases mem_waiting.1 waits with ⟨waited, -⟩ | ⟨y, mem, named⟩
      · obtain ⟨y, mem, named⟩ : ∃ y ∈ pending r t.core.unlisted, y.id = x.id := by
          simpa [ExtTreeSet.mem_ofList] using waited
        exact of_pending mem named
      · rcases List.mem_append.1 ((offered.mem_iff y).2 (.inr mem)) with mem | created
        · exact of_pending mem named
        · exact absurd named.symm (((planned.mem_created y).1 created).2.2.2 x before)
    · exact (step.afresh_rotated plans rfl rfl created).sourced
  | contactGone => exact step.keeps.elim
  | transportGone => exact step.keeps.elim
  | stopped | replaced | restarted => simp at waits
  | _ => exact .inr (.inr ⟨waits, held⟩)

/-! ## Acts -/

theorem Accounted.mono (accounted : Accounted suite origin recorded now c)
    (positive : Positive recorded c.tolerance) (le : now ≤ later) :
    Accounted suite origin recorded later c where
  genuine := accounted.genuine
  tracked id listing there := (accounted.tracked id listing there).mono positive le
  waiting id waits := (accounted.waiting id waits).mono positive le

/-- Whatever is listed or waits to be listed stays genuine and tracked. -/
theorem Accounted.step (step : Step suite origin recorded now t act report c)
    (accounted : Accounted suite origin recorded now t.core) :
    Accounted suite origin recorded now c where
  genuine id listing there := by
    rcases step.listing_cases accounted there with before | ⟨ticket, rfl⟩ | ⟨x, rfl, rfl, afresh⟩
    · exact accounted.genuine id listing before
    · obtain ⟨listing', _, _, before, -, -, listings, -⟩ := step.effect.of_answered
      obtain ⟨tags, rfl⟩ := listings listing there
      obtain ⟨link, key⟩ := accounted.genuine id listing' before
      exact ⟨link, key⟩
    · exact afresh.genuine.listing
  tracked id listing there := by
    rcases step.listing_cases accounted there with before | ⟨ticket, rfl⟩ | ⟨x, rfl, rfl, afresh⟩
    · exact (accounted.tracked id listing before).step step
    · obtain ⟨listing', _, _, before, -⟩ := step.effect.of_answered
      exact (accounted.tracked id listing' before).step step
    · exact afresh.tracked
  waiting id waits := by
    cases step.effect with
    | enrolled at_now reached offered =>
      rcases mem_waiting.1 waits with ⟨before, -⟩ | ⟨x, mem, rfl⟩
      · exact (accounted.waiting id before).step step
      · exact (step.afresh_enrolled at_now reached rfl ((offered.mem_iff x).2 (.inr mem))).2.tracked
    | @rotated _ _ r taken refused quiet plans offered =>
      have afresh {x : PeriodSecret} (mem : x ∈ pending r t.core.unlisted ++ r.created) :=
        step.afresh_offered accounted plans rfl rfl mem
      rcases mem_waiting.1 waits with ⟨waited, -⟩ | ⟨x, mem, rfl⟩
      · obtain ⟨x, mem, rfl⟩ : ∃ x ∈ pending r t.core.unlisted, x.id = id := by
          simpa [ExtTreeSet.mem_ofList] using waited
        exact (afresh (List.mem_append_left _ mem)).tracked
      · exact (afresh ((offered.mem_iff x).2 (.inr mem))).tracked
    | stopped | replaced | restarted => simp at waits
    | _ => exact (accounted.waiting id waits).step step

/-- A directory that takes all secrets goes on to do so, and none comes to wait. -/
theorem Unopposed.effect (effect : Effect suite now t act report c) (unopposed : Unopposed t.core) :
    Unopposed c where
  willing := by
    cases effect <;> first | exact unopposed.willing | exact fun _ _ => rfl
  none_waiting := by
    have idle {taken refused secrets : List PeriodSecret} {unlisted : ExtTreeSet PeriodId}
        (offered : Offered t.core secrets taken refused) (none : unlisted = ∅) :
        waiting taken refused unlisted = ∅ := by
      refine ExtTreeSet.eq_empty_iff_forall_not_mem.2 fun id mem => ?_
      rcases mem_waiting.1 mem with ⟨waits, -⟩ | ⟨x, refused, -⟩
      · exact ExtTreeSet.not_mem_empty (none ▸ waits)
      · simp [(offered.of_willing unopposed.willing).2] at refused
    cases effect with
    | enrolled at_now reached offered => exact idle offered unopposed.none_waiting
    | rotated quiet plans offered =>
      refine idle offered ?_
      simp [pending, unopposed.none_waiting]
    | stopped | replaced | restarted => rfl
    | _ => exact unopposed.none_waiting

/-- Where no secret waits, a rotation lists what it derives. -/
theorem Unopposed.taken_eq {r : Rollover} {taken refused : List PeriodSecret} (unopposed : Unopposed c)
    (offered : Offered c (pending r c.unlisted ++ r.created) taken refused) : taken = r.created := by
  rw [(offered.of_willing unopposed.willing).1]
  simp [pending, unopposed.none_waiting]

theorem Listed.mono (listed : Listed suite origin recorded now c)
    (positive : Positive recorded c.tolerance) (le : now ≤ later) :
    Listed suite origin recorded later c :=
  ⟨listed.toAccounted.mono positive le, listed.toUnopposed⟩

theorem Listed.step (step : Step suite origin recorded now t act report c)
    (listed : Listed suite origin recorded now t.core) : Listed suite origin recorded now c :=
  ⟨listed.toAccounted.step step, listed.toUnopposed.effect step.effect⟩

section Known

variable {stream : Nat}

theorem Known.mono (known : Known origin recorded id stream now c)
    (positive : Positive recorded c.tolerance) (le : now ≤ later) :
    Known origin recorded id stream later c :=
  { known with tracked := known.tracked.mono positive le }

/-- An act that answers a stream does not answer one that is known. -/
theorem Known.ne_answered {ticket : Ticket} (known : Known origin recorded id stream now t.core)
    (effect : Effect suite now t act (.answered id ticket) c) : ticket.stream ≠ stream := by
  obtain ⟨listing, _, _, there, marks, -⟩ := effect.of_answered
  rintro rfl
  exact (SeenWindow.of_mark? marks).2.1 (known.listings listing there)

/-- No act forgets a stream that is known. -/
theorem Known.step (step : Step suite origin recorded now t act report c)
    (accounted : Accounted suite origin recorded now t.core) (lt : stream < Count.top)
    (known : Known origin recorded id stream now t.core) :
    Known origin recorded id stream now c := by
  -- A window that the secret gets from the directory has seen what the listing had seen.
  have moved {listing : Listing} {window : SeenWindow} {entered : List Nat} {ticket : Ticket}
      (there : t.core.directory.listings[id]? = some listing)
      (marks : listing.window.mark? ticket.stream = some (window, entered)) : window.Seen stream :=
    ((SeenWindow.of_mark? marks).2.2 _ lt).2 (.inl (known.listings listing there))
  have rows (row' : PeriodSecret) (there : c.vault.rows[id]? = some row') :
      row'.incoming.Seen stream := by
    rcases step.carried.new id row' there with
      ⟨row, before, -, same | ⟨ticket, rfl⟩⟩ | ⟨absent, live, -⟩
    · rw [same]
      exact known.rows row before
    · obtain ⟨listing, window, _, there', marks, -, -, rows⟩ := step.effect.of_answered
      rw [rows row' there]
      exact moved there' marks
    · exact absurd (known.tracked.stored (by simpa using absent)) live.not_expired
  have sourced {x : PeriodSecret} (named : x.id = id) (source : Sourced origin recorded now t c x) :
      x.incoming.Seen stream := by
    subst named
    rcases source with ⟨row, before | after, same⟩ | untracked | ⟨waits, held⟩
    · rw [same]
      exact known.rows row before
    · rw [same]
      exact rows row after
    · exact absurd known.tracked untracked
    · exact known.waiting waits x held rfl
  refine ⟨known.tracked.step step, ?_, rows, ?_⟩
  · intro listing there
    rcases step.listing_cases accounted there with before | ⟨ticket, rfl⟩ | ⟨x, named, rfl, afresh⟩
    · exact known.listings listing before
    · obtain ⟨listing', window, _, there', marks, -, listings, -⟩ := step.effect.of_answered
      obtain ⟨tags, rfl⟩ := listings listing there
      exact moved there' marks
    · exact sourced named afresh.sourced
  · intro waits x held named
    exact sourced named (step.waiting_cases held (named ▸ waits))

/-- A stream that was just answered is known, unless its secret waits to be listed. -/
theorem known_of_answered {ticket : Ticket}
    (step : Step suite origin recorded now t act (.answered id ticket) c)
    (accounted : Accounted suite origin recorded now t.core) (lt : ticket.stream < Count.top)
    (settled : id ∉ t.core.unlisted) : Known origin recorded id ticket.stream now c := by
  obtain ⟨listing, window, _, there, marks, -, listings, rows⟩ := step.effect.of_answered
  have seen : window.Seen ticket.stream := ((SeenWindow.of_mark? marks).2.2 _ lt).2 (.inr rfl)
  refine ⟨(accounted.tracked id listing there).step step, ?_, ?_, ?_⟩
  · intro l there
    obtain ⟨tags, rfl⟩ := listings l there
    exact seen
  · exact fun row there => (rows row there).symm ▸ seen
  · intro waits
    cases step.effect with
    | recognized => exact absurd waits settled
    | rotated quiet => simp at quiet

end Known

/-! ## Runs -/

/-- A stream of the peer that was answered while its secret did not wait to be listed is not answered
again, but for the one with the greatest number. -/
theorem Regular.pairwise_log_answered {acts : List (Nat × Act)} {s : Station}
    (positive : Positive recorded tolerance) (regular : Regular origin recorded tolerance acts)
    (steady : Steady suite origin recorded 0 s.core) (same : s.core.tolerance = tolerance)
    (accounted : Accounted suite origin recorded 0 s.core) :
    (log suite acts s).Pairwise fun past e => ∀ id ticket ticket',
      past.report = .answered id ticket → id ∉ past.before.core.unlisted →
        e.report = .answered id ticket' → ticket.stream < Count.top →
          ticket'.stream ≠ ticket.stream := by
  refine (regular.pairwise_log (Accounted suite origin recorded)
    (fun past now c => ∀ id ticket, past.report = .answered id ticket →
      id ∉ past.before.core.unlisted → ticket.stream < Count.top →
        Known origin recorded id ticket.stream now c)
    positive ?_ ?_ (fun act _ => Nat.zero_le act.1) steady same accounted).2
  · intro now later c le same accounted
    subst same
    exact ⟨accounted.mono positive le, fun past known id ticket made settled lt =>
      (known id ticket made settled lt).mono positive le⟩
  · rintro ⟨t, ⟨now, act⟩, report, u⟩ step accounted
    refine ⟨accounted.step step, ?_, fun past known => ⟨?_, ?_⟩⟩
    · rintro id ticket rfl settled lt
      exact known_of_answered step accounted lt settled
    · rintro id ticket ticket' made settled rfl lt
      have known : Known origin recorded id ticket.stream now (t.atTime now).core :=
        known id ticket made settled lt
      exact known.ne_answered step.effect
    · intro id ticket made settled lt
      exact (known id ticket made settled lt).step step accounted lt

theorem Unopposed.log {acts : List (Nat × Act)} {s : Station} (unopposed : Unopposed s.core) :
    ∀ e ∈ log suite acts s, Unopposed e.before.core := by
  intro e mem
  refine (invariant_of_log (fun t => Unopposed t.core) unopposed ?_ e mem).1
  exact fun e mem before => Unopposed.effect (effect_of_mem_log mem).2 before

/-- No stream of the peer is answered twice if the directory takes all secrets, but for the one with
the greatest number. -/
theorem Regular.pairwise_answered {acts : List (Nat × Act)} {s : Station}
    (positive : Positive recorded tolerance) (regular : Regular origin recorded tolerance acts)
    (steady : Steady suite origin recorded 0 s.core) (same : s.core.tolerance = tolerance)
    (listed : Listed suite origin recorded 0 s.core) :
    (reports suite acts s).Pairwise fun past report => ∀ id ticket ticket',
      past = .answered id ticket → report = .answered id ticket' → ticket.stream < Count.top →
        ticket.stream ≠ ticket'.stream := by
  rw [reports_eq_map_log, List.pairwise_map]
  refine (regular.pairwise_log_answered positive steady same listed.toAccounted).imp_of_mem ?_
  intro past e mem _ differ id ticket ticket' made made' lt
  have settled : id ∉ past.before.core.unlisted := by
    rw [(listed.toUnopposed.log past mem).none_waiting]
    exact ExtTreeSet.not_mem_empty
  exact (differ id ticket ticket' made settled made' lt).symm

end Station

end SealedStream
