import SealedStream.Proofs.Station.Rolled

/-!
# The lifetime of a stored secret

As long as the clock does not go back and no contact or transport is removed, a stored secret is
removed only once it is dead, and only live secrets are stored. So a secret that was removed is never
stored again, and what its row has counted is not lost while it is of use.

## Main definitions

* `Station.Expired`, `Station.Live`, `Station.Begun` — where a secret stands by the recorded
  latencies.
* `Station.Steady` — a sound station at some time, all of whose secrets have begun.
* `Station.Carried` — what becomes of the rows in one act.

## Main statements

* `Station.Steady.effect`, `Station.Steady.carried` — acts keep a station steady and carry its rows.
-/

namespace SealedStream.Station

open Std

variable {suite : Suite} {origin : Pair → Origin} {recorded : ExtTreeMap Transport Nat}
  {tolerance now later : Nat} {id : PeriodId}

/-! ## Where a secret stands -/

section Standing

variable (origin recorded tolerance now)

/-- The secret is dead. -/
def Expired (id : PeriodId) : Prop :=
  ∃ c, Rollover.cycle? origin now recorded tolerance id.toPair = some c ∧ (id.period : Int) + 2 ≤ c

/-- The secret has been created. -/
def Begun (id : PeriodId) : Prop :=
  ∃ c, Rollover.cycle? origin now recorded tolerance id.toPair = some c ∧ (id.period : Int) ≤ c + 1

/-- The secret has been created and is not dead. -/
def Live (id : PeriodId) : Prop :=
  ∃ c, Rollover.cycle? origin now recorded tolerance id.toPair = some c ∧
    c ≤ (id.period : Int) + 1 ∧ (id.period : Int) ≤ c + 1

/-- The recorded latencies give all periods a length. -/
def Positive (recorded : ExtTreeMap Transport Nat) (tolerance : Nat) : Prop :=
  ∀ (transport : Transport) (latency : Nat), recorded[transport]? = some latency →
    0 < Schedule.interval latency tolerance

end Standing

theorem positive_of_latencies (pos : ∀ (transport : Transport) (latency : Nat),
    recorded[transport]? = some latency → 0 < latency) (tolerance : Nat) :
    Positive recorded tolerance := by
  intro transport latency known
  have pos := pos transport latency known
  rw [Schedule.interval, Count.plus, Count.top]
  omega

theorem Live.begun (h : Live origin recorded tolerance now id) :
    Begun origin recorded tolerance now id := by
  obtain ⟨c, hc, -, le⟩ := h
  exact ⟨c, hc, le⟩

theorem Live.not_expired (h : Live origin recorded tolerance now id) :
    ¬ Expired origin recorded tolerance now id := by
  rintro ⟨c, hc, dead⟩
  obtain ⟨c', hc', live, -⟩ := h
  rw [hc, Option.some.injEq] at hc'
  omega

section Mono

variable (positive : Positive recorded tolerance) (le : now ≤ later)
include positive le

theorem cycle?_mono {pair : Pair} {c : Int}
    (h : Rollover.cycle? origin now recorded tolerance pair = some c) :
    ∃ c', Rollover.cycle? origin later recorded tolerance pair = some c' ∧ c ≤ c' := by
  obtain ⟨latency, known, rfl⟩ := Option.map_eq_some_iff.1 h
  exact ⟨_, by rw [Rollover.cycle?, known]; rfl, Schedule.cycle_mono (positive _ _ known) le⟩

theorem Expired.mono (h : Expired origin recorded tolerance now id) :
    Expired origin recorded tolerance later id := by
  obtain ⟨c, hc, dead⟩ := h
  obtain ⟨c', hc', le⟩ := cycle?_mono positive le hc
  exact ⟨c', hc', by omega⟩

theorem Begun.mono (h : Begun origin recorded tolerance now id) :
    Begun origin recorded tolerance later id := by
  obtain ⟨c, hc, begun⟩ := h
  obtain ⟨c', hc', le⟩ := cycle?_mono positive le hc
  exact ⟨c', hc', by omega⟩

end Mono

/-! ## Steady stations -/

/-- An act does not remove a contact or a transport. -/
def Act.Keeps : Act → Prop
  | .react (.contactGone _) | .react (.transportGone _) => False
  | _ => True

/-- A sound station whose latencies are the recorded ones, and all of whose secrets have begun. -/
structure Steady (suite : Suite) (origin : Pair → Origin) (recorded : ExtTreeMap Transport Nat)
    (now : Nat) (c : Core) : Prop where
  sound : Sound suite origin (fun transport latency => recorded[transport]? = some latency) c
  latencies : c.vault.latencies = recorded
  begun_rows : ∀ id ∈ c.vault.rows, Begun origin recorded c.tolerance now id
  begun_held : ∀ (pair : Pair) (trio : Trio), c.held[pair]? = some trio →
    ∀ turn s, trio.get turn = some s → Begun origin recorded c.tolerance now s.id

/-- In one act, a row may count more streams and see more of them. It is removed only if it has
expired, and only live rows are added. -/
structure Carried (suite : Suite) (origin : Pair → Origin) (recorded : ExtTreeMap Transport Nat)
    (tolerance now : Nat) (report : Report) (rows rows' : ExtTreeMap PeriodId PeriodSecret) :
    Prop where
  new : ∀ (id : PeriodId) (row' : PeriodSecret), rows'[id]? = some row' →
    (∃ row, rows[id]? = some row ∧ row.outgoing ≤ row'.outgoing ∧
      (row'.incoming = row.incoming ∨ ∃ ticket, report = .answered id ticket)) ∨
    rows[id]? = none ∧ Live origin recorded tolerance now id ∧
      row' = .ofChain suite origin id.toPair id.period
  gone : ∀ id ∈ rows, id ∉ rows' → Expired origin recorded tolerance now id

/-! ## What is added and removed -/

section Rows

variable {report : Report} {rows rows' : ExtTreeMap PeriodId PeriodSecret}

theorem Carried.refl (report : Report) (rows : ExtTreeMap PeriodId PeriodSecret) :
    Carried suite origin recorded tolerance now report rows rows where
  new _ row' there := .inl ⟨row', there, le_rfl, .inl rfl⟩
  gone _ mem absent := absurd mem absent

theorem carried_putAll (genuine : Vault.GenuineRows suite origin rows) {secrets : List PeriodSecret}
    (chained : ∀ s ∈ secrets, s = .ofChain suite origin s.pair s.period)
    (live : ∀ s ∈ secrets, Live origin recorded tolerance now s.id) :
    Carried suite origin recorded tolerance now report rows (secrets.foldl Vault.put rows) where
  new id row' there := by
    rw [Vault.getElem?_putAll genuine chained, Option.or_eq_some_iff] at there
    rcases there with there | ⟨none, added⟩
    · exact .inl ⟨row', there, le_rfl, .inl rfl⟩
    · obtain ⟨⟨s, mem, named⟩, eq⟩ := Option.ite_none_right_eq_some.1 added
      exact .inr ⟨none, named ▸ live s mem, (Option.some.inj eq).symm⟩
  gone _ mem absent := absurd ((Vault.mem_putAll genuine chained).2 (.inl mem)) absent

theorem Carried.eraseAll (carried : Carried suite origin recorded tolerance now report rows rows')
    {ids : List PeriodId} (expired : ∀ id ∈ ids, Expired origin recorded tolerance now id) :
    Carried suite origin recorded tolerance now report rows (ids.foldl (·.erase ·) rows') where
  new id row' there := by
    rw [Vault.getElem?_eraseAll] at there
    split at there
    · cases there
    · exact carried.new id row' there
  gone id mem absent := by
    by_cases there : id ∈ rows'
    · by_cases erased : id ∈ ids
      · exact expired id erased
      · exact absurd (Vault.mem_eraseAll.2 ⟨there, erased⟩) absent
    · exact carried.gone id mem there

theorem carried_insert {row row' : PeriodSecret} (kept : rows[id]? = some row)
    (outgoing : row.outgoing ≤ row'.outgoing)
    (incoming : row'.incoming = row.incoming ∨ ∃ ticket, report = .answered id ticket) :
    Carried suite origin recorded tolerance now report rows (rows.insert id row') where
  new other other' there := by
    rw [ExtTreeMap.getElem?_insert] at there
    split at there
    · rename_i same
      obtain rfl := LawfulEqCmp.compare_eq_iff_eq.1 same
      cases there
      exact .inl ⟨row, kept, outgoing, incoming⟩
    · exact .inl ⟨other', there, le_rfl, .inl rfl⟩
  gone other mem absent := absurd (ExtTreeMap.mem_insert.2 (.inr mem)) absent

end Rows

section Rollovers

variable {latencies : ExtTreeMap Transport Nat} {secrets : List PeriodSecret} {r : Rollover}
  (sub : ∀ (transport : Transport) (latency : Nat), latencies[transport]? = some latency →
    recorded[transport]? = some latency)
include sub

theorem cycle?_of_sub {pair : Pair} {c : Int}
    (h : Rollover.cycle? origin now latencies tolerance pair = some c) :
    Rollover.cycle? origin now recorded tolerance pair = some c := by
  obtain ⟨latency, known, rfl⟩ := Option.map_eq_some_iff.1 h
  rw [Rollover.cycle?, sub _ _ known]
  rfl

variable (positive : Positive recorded tolerance)
  (planned : Rollover.Planned suite origin now latencies tolerance secrets r)

include positive in
theorem cycle?_eq {pair : Pair} {latency current : Nat}
    (known : latencies[pair.transport]? = some latency)
    (at_now : Schedule.periodAt (origin pair).epoch (Schedule.interval latency tolerance) now =
      some current) : Rollover.cycle? origin now recorded tolerance pair = some (current : Int) := by
  have known' := sub _ _ known
  obtain ⟨-, cycle⟩ := (Schedule.periodAt_eq_some_iff (positive _ _ known')).1 at_now
  rw [Rollover.cycle?, known', Option.map_some, cycle]

include positive in
/-- The periods around the current one are live. -/
theorem live_of_near {pair : Pair} {latency current period : Nat}
    (known : latencies[pair.transport]? = some latency)
    (at_now : Schedule.periodAt (origin pair).epoch (Schedule.interval latency tolerance) now =
      some current) (near : Rollover.Near current period) :
    Live origin recorded tolerance now ⟨pair, period⟩ := by
  unfold Rollover.Near at near
  exact ⟨current, cycle?_eq sub positive known at_now, by dsimp only; omega, by dsimp only; omega⟩

include positive planned in
theorem live_created {s : PeriodSecret} (mem : s ∈ r.created) :
    Live origin recorded tolerance now s.id := by
  obtain ⟨-, ⟨latency, current, turn, known, at_now, target⟩, -, -⟩ := (planned.mem_created s).1 mem
  exact live_of_near sub positive known at_now
    (Rollover.near_iff_exists_offset.2 ⟨turn, Turn.eq_add_offset_of_period target⟩)

include planned in
/-- What a rollover holds is live. -/
theorem live_held {pair : Pair} {trio : Trio} (there : r.held[pair]? = some trio) {turn : Turn}
    {x : PeriodSecret} (stands : trio.get turn = some x) :
    Live origin recorded tolerance now x.id := by
  obtain ⟨rfl, -, c, hc, place⟩ := (planned.get_held pair turn x).1 (by rw [there]; exact stands)
  have place : (x.id.period : Int) = c + turn.offset := place
  refine ⟨c, cycle?_of_sub sub hc, ?_, ?_⟩
  all_goals cases turn <;> simp only [Turn.offset] at place <;> omega

include positive planned in
theorem carried_stored {report : Report} {rows : ExtTreeMap PeriodId PeriodSecret}
    (genuine : Vault.GenuineRows suite origin rows) :
    Carried suite origin recorded tolerance now report rows (stored r rows) :=
  carried_putAll genuine (chained_created planned) fun _ mem =>
    live_created sub positive planned mem

include planned in
theorem expired_retired
    (known : ∀ s ∈ secrets, ∃ latency, latencies[s.pair.transport]? = some latency)
    {id : PeriodId} (mem : id ∈ r.retired) : Expired origin recorded tolerance now id := by
  simp only [Rollover.retired, List.mem_map, List.mem_append, planned.mem_dead,
    planned.mem_orphaned] at mem
  obtain ⟨s, ⟨-, c, hc, dead⟩ | ⟨mem, orphaned⟩, rfl⟩ := mem
  · exact ⟨c, cycle?_of_sub sub hc, dead⟩
  · obtain ⟨latency, known⟩ := known s mem
    rw [orphaned] at known
    cases known

end Rollovers

/-! ## Acts -/

namespace Steady

variable {s : Station} {act : Act} {report : Report} {c : Core}

/-- Time goes by. -/
theorem mono (steady : Steady suite origin recorded now c)
    (positive : Positive recorded c.tolerance) (le : now ≤ later) :
    Steady suite origin recorded later c where
  sound := steady.sound
  latencies := steady.latencies
  begun_rows id mem := (steady.begun_rows id mem).mono positive le
  begun_held pair trio there turn s stands :=
    (steady.begun_held pair trio there turn s stands).mono positive le

/-- A stored secret is that of a transport with a recorded latency. -/
theorem known_stored (steady : Steady suite origin recorded now c) :
    ∀ s ∈ c.vault.rows.values, ∃ latency, c.vault.latencies[s.pair.transport]? = some latency := by
  intro s mem
  obtain ⟨id, there⟩ := mem_values.1 mem
  obtain ⟨cycle, hc, -⟩ := steady.begun_rows id (by simp [ExtTreeMap.mem_iff_isSome_getElem?, there])
  obtain ⟨latency, known, -⟩ := Option.map_eq_some_iff.1 hc
  have own : s.pair = id.toPair := congrArg PeriodId.toPair (steady.sound.rows id s there).1
  exact ⟨latency, by rw [steady.latencies, own, known]⟩

theorem known_held (steady : Steady suite origin recorded now c) :
    ∀ s ∈ c.held.values.flatMap Trio.secrets,
      ∃ latency, c.latencies[s.pair.transport]? = some latency := by
  intro s mem
  obtain ⟨pair, trio, turn, there, stands⟩ := mem_heldSecrets.1 mem
  obtain ⟨first, row⟩ := steady.sound.held pair trio there
  rw [(row turn s stands).1]
  exact steady.sound.known pair trio there

section Enroll

variable {link : Link} {latency current : Nat} {handshake : Key}
  (positive : Positive recorded s.core.tolerance)
  (follows : (Act.enroll link latency handshake).Follows origin
    fun transport latency => recorded[transport]? = some latency)
  (at_now : Schedule.periodAt link.epoch (Schedule.interval latency s.core.tolerance) now =
    some current)
include positive follows at_now

theorem cycle?_enrolled :
    Rollover.cycle? origin now recorded s.core.tolerance link.toPair = some (current : Int) := by
  obtain ⟨link_eq, -, known⟩ := follows
  rw [link_eq] at at_now
  exact cycle?_eq (fun _ _ known => known) positive known at_now

theorem live_around {period : Nat} (near : Rollover.Near current period) :
    Live origin recorded s.core.tolerance now ⟨link.toPair, period⟩ := by
  unfold Rollover.Near at near
  exact ⟨current, cycle?_enrolled positive follows at_now, by dsimp only; omega,
    by dsimp only; omega⟩

/-- What enrolling removes is dead, as held secrets have begun. -/
theorem expired_stale (steady : Steady suite origin recorded now s.core) {id : PeriodId}
    (mem : id ∈ staleIds s.keyring link.toPair (liveSecrets suite link current handshake)) :
    Expired origin recorded s.core.tolerance now id := by
  obtain ⟨own, far, -⟩ :=
    mem_staleIds_derived steady.sound follows (Schedule.pos_of_periodAt at_now) mem
  obtain ⟨⟨trio, there, turn, x, stands, rfl⟩, -⟩ := mem_staleIds.1 mem
  obtain ⟨c, hc, begun⟩ := steady.begun_held link.toPair trio there turn x stands
  have at_cycle := cycle?_enrolled positive follows at_now
  rw [own, at_cycle, Option.some.injEq] at hc
  refine ⟨current, own ▸ at_cycle, ?_⟩
  unfold Rollover.Near at far
  omega

theorem begun_enrolled {rows : ExtTreeMap PeriodId PeriodSecret}
    (genuine : Vault.GenuineRows suite origin rows)
    {turn : Turn} {x : PeriodSecret}
    (stands : (trioOf ((liveSecrets suite link current handshake).map
      (storedForm rows.values))).get turn = some x) :
    Begun origin recorded s.core.tolerance now x.id := by
  have pos := Schedule.pos_of_periodAt at_now
  rw [liveSecrets_of_follows follows pos] at stands
  obtain ⟨period, place, there⟩ := get_trioOf suite origin _ pos (storedForm rows.values) turn
  obtain rfl := Option.some.inj (there.symm.trans stands)
  rw [(storedForm_ofChain genuine _ period).1]
  exact (live_around positive follows at_now
    (Rollover.near_iff_exists_offset.2 ⟨turn, place⟩)).begun

theorem carried_enrolled (steady : Steady suite origin recorded now s.core) {report : Report}
    {rows : ExtTreeMap PeriodId PeriodSecret}
    (reached :
      let derived := liveSecrets suite link current handshake
      let added := derived.foldl Vault.put s.core.vault.rows
      rows = added ∨ rows = (staleIds s.keyring link.toPair derived).foldl (·.erase ·) added) :
    Carried suite origin recorded s.core.tolerance now report s.core.vault.rows rows := by
  have pos := Schedule.pos_of_periodAt at_now
  have added : Carried suite origin recorded s.core.tolerance now report s.core.vault.rows
      ((liveSecrets suite link current handshake).foldl Vault.put s.core.vault.rows) := by
    rw [liveSecrets_of_follows follows pos]
    refine carried_putAll steady.sound.rows (chained_around _ _) ?_
    intro x mem
    obtain ⟨own, near⟩ := (exists_mem_around pos).1 ⟨x, mem, rfl⟩
    have live := live_around positive follows at_now near
    rwa [← own] at live
  rcases reached with rfl | rfl
  · exact added
  · exact added.eraseAll fun id mem => steady.expired_stale positive follows at_now mem

end Enroll

/-- Rows are carried through every act that removes no contact and no transport. -/
theorem carried (steady : Steady suite origin recorded now s.core)
    (positive : Positive recorded s.core.tolerance)
    (follows : act.Follows origin fun transport latency => recorded[transport]? = some latency)
    (keeps : act.Keeps)
    (counted : Counted origin s.core.tolerance
      (fun transport latency => recorded[transport]? = some latency) now)
    (effect : Effect suite now s act report c) :
    Carried suite origin recorded s.core.tolerance now report s.core.vault.rows c.vault.rows := by
  have fits : Fits origin s.core.tolerance
    (fun transport latency => recorded[transport]? = some latency) now := ⟨positive, counted⟩
  have rows := steady.sound.rows
  cases effect with
  | kept => exact .refl ..
  | enrolling at_now reached => exact steady.carried_enrolled positive follows at_now reached
  | enrolled at_now reached =>
    exact steady.carried_enrolled positive follows at_now (.inr reached)
  | starting plans =>
    exact carried_stored steady.sound.recorded positive (steady.sound.planned_stored fits plans) rows
  | startRefused plans | started plans =>
    have planned := steady.sound.planned_stored fits plans
    exact (carried_stored steady.sound.recorded positive planned rows).eraseAll fun id mem =>
      expired_retired steady.sound.recorded planned steady.known_stored mem
  | rotating plans reached =>
    rcases reached with rfl | rfl
    · exact .refl ..
    · exact carried_stored steady.sound.latencies positive (steady.sound.planned_held fits plans) rows
  | rotated quiet plans =>
    have planned := steady.sound.planned_held fits plans
    exact (carried_stored steady.sound.latencies positive planned rows).eraseAll fun id mem =>
      expired_retired steady.sound.latencies planned steady.known_held mem
  | contactGone => exact keeps.elim
  | transportGone => exact keeps.elim
  | issued held kept => exact carried_insert kept (Nat.le_succ _) (.inl rfl)
  | @recognized bytes id ticket window directory recognizes =>
    dsimp only
    unfold Vault.withWindow
    cases kept : s.core.vault.rows[id]? with
    | none => exact .refl ..
    | some row => exact carried_insert kept le_rfl (.inr ⟨ticket, rfl⟩)
  | stopped | transportUp | replaced | restarted => exact .refl ..

/-- A steady station stays steady through every act that removes no contact and no transport. -/
theorem effect (steady : Steady suite origin recorded now s.core)
    (positive : Positive recorded s.core.tolerance)
    (follows : act.Follows origin fun transport latency => recorded[transport]? = some latency)
    (keeps : act.Keeps)
    (counted : Counted origin s.core.tolerance
      (fun transport latency => recorded[transport]? = some latency) now)
    (effect : Effect suite now s act report c) : Steady suite origin recorded now c := by
  have fits : Fits origin s.core.tolerance
    (fun transport latency => recorded[transport]? = some latency) now := ⟨positive, counted⟩
  have carried := steady.carried positive follows keeps counted effect
  have tolerance := effect.tolerance_eq
  refine ⟨steady.sound.effect follows fits effect, ?_, ?_, ?_⟩
  · cases effect <;> first | exact steady.latencies | exact keeps.elim
  · intro id mem
    rw [tolerance]
    rcases carried.new id _ (ExtTreeMap.getElem?_eq_some_getElem mem) with
      ⟨row, before, -, -⟩ | ⟨-, live, -⟩
    · exact steady.begun_rows id (by simp [ExtTreeMap.mem_iff_isSome_getElem?, before])
    · exact live.begun
  · rw [tolerance]
    cases effect with
    | started plans =>
      intro pair trio there turn x stands
      have planned := steady.sound.planned_stored fits plans
      exact (live_held steady.sound.recorded planned there stands).begun
    | rotated quiet plans =>
      intro pair trio there turn x stands
      have planned := steady.sound.planned_held fits plans
      exact (live_held steady.sound.latencies planned there stands).begun
    | enrolled at_now reached =>
      intro pair trio there turn x stands
      have genuine := steady.sound.genuineRows_enrolled follows (Schedule.pos_of_periodAt at_now)
        (.inr reached)
      rw [ExtTreeMap.getElem?_insert] at there
      split at there
      · cases there
        exact begun_enrolled positive follows at_now genuine stands
      · exact steady.begun_held pair trio there turn x stands
    | contactGone => exact keeps.elim
    | transportGone => exact keeps.elim
    | stopped | replaced | restarted => simp
    | _ => exact steady.begun_held

end Steady

/-- A keyring that was never started, at a post that stores no secrets, is steady. -/
theorem steady_stopped {settings : Settings} {serial : Nat} {post : Post}
    (blank : post.vault.vault.rows = ∅) :
    Steady suite origin post.vault.vault.latencies now (core ⟨.stopped settings serial, post⟩) where
  sound := sound_stopped blank fun _ _ known => known
  latencies := rfl
  begun_rows id mem := by
    rw [show (core ⟨.stopped settings serial, post⟩).vault.rows = ∅ from blank] at mem
    simp at mem
  begun_held := by simp [core, Keyring.stopped]

/-- A fresh post may have the latency of one transport recorded. -/
theorem latencies_postAt_iff {transport transport' : Transport} {latency latency' : Nat} :
    (Peer.postAt ⟨.setLatency transport latency .empty, .clear⟩
        now).vault.vault.latencies[transport']? = some latency' ↔
      transport = transport' ∧ latency = latency' := by
  change ((∅ : ExtTreeMap Transport Nat).insert transport latency)[transport']? = _ ↔ _
  simp [ExtTreeMap.getElem?_insert]

/-! ## Runs -/

/-- The clock does not go back, links and latencies are the recorded ones, no contact or transport is
removed, and all current periods are counts. -/
structure Regular (origin : Pair → Origin) (recorded : ExtTreeMap Transport Nat) (tolerance : Nat)
    (acts : List (Nat × Act)) : Prop where
  ordered : acts.Pairwise fun a b => a.1 ≤ b.1
  follows : ∀ act ∈ acts,
    act.2.Follows origin fun transport latency => recorded[transport]? = some latency
  keeps : ∀ act ∈ acts, act.2.Keeps
  counted : ∀ act ∈ acts, Counted origin tolerance
    (fun transport latency => recorded[transport]? = some latency) act.1

/-- One act of a regular run. -/
structure Step (suite : Suite) (origin : Pair → Origin) (recorded : ExtTreeMap Transport Nat)
    (now : Nat) (s : Station) (act : Act) (report : Report) (c : Core) : Prop where
  effect : Effect suite now s act report c
  positive : Positive recorded s.core.tolerance
  follows : act.Follows origin fun transport latency => recorded[transport]? = some latency
  keeps : act.Keeps
  fits : Fits origin s.core.tolerance
    (fun transport latency => recorded[transport]? = some latency) now
  before : Steady suite origin recorded now s.core
  after : Steady suite origin recorded now c
  carried : Carried suite origin recorded s.core.tolerance now report s.core.vault.rows c.vault.rows

theorem Steady.step {s : Station} {act : Act} {report : Report} {c : Core}
    (steady : Steady suite origin recorded now s.core) (positive : Positive recorded s.core.tolerance)
    (follows : act.Follows origin fun transport latency => recorded[transport]? = some latency)
    (keeps : act.Keeps)
    (counted : Counted origin s.core.tolerance
      (fun transport latency => recorded[transport]? = some latency) now)
    (effect : Effect suite now s act report c) :
    Step suite origin recorded now s act report c where
  effect := effect
  positive := positive
  follows := follows
  keeps := keeps
  fits := ⟨positive, counted⟩
  before := steady
  after := steady.effect positive follows keeps counted effect
  carried := steady.carried positive follows keeps counted effect

/-- The acts of a regular run are related in their order if each of them leaves a mark that stays, and
each is related to all whose marks it finds. -/
theorem Regular.pairwise_log
    {R : Log.Entry Station (Nat × Act) Report → Log.Entry Station (Nat × Act) Report → Prop}
    (Inv : Nat → Core → Prop) (Mark : Log.Entry Station (Nat × Act) Report → Nat → Core → Prop)
    {acts : List (Nat × Act)} {s : Station} (positive : Positive recorded tolerance)
    (wait : ∀ now later c, now ≤ later → c.tolerance = tolerance → Inv now c →
      Inv later c ∧ ∀ past, Mark past now c → Mark past later c)
    (step : ∀ e : Log.Entry Station (Nat × Act) Report,
      Step suite origin recorded e.act.1 (e.before.atTime e.act.1) e.act.2 e.report e.after.core →
      Inv e.act.1 e.before.core →
      Inv e.act.1 e.after.core ∧ Mark e e.act.1 e.after.core ∧
        ∀ past, Mark past e.act.1 e.before.core → R past e ∧ Mark past e.act.1 e.after.core)
    (regular : Regular origin recorded tolerance acts) (since : ∀ act ∈ acts, now ≤ act.1)
    (steady : Steady suite origin recorded now s.core) (same : s.core.tolerance = tolerance)
    (start : Inv now s.core) :
    (∀ past, Mark past now s.core → ∀ e ∈ log suite acts s, R past e) ∧
      (log suite acts s).Pairwise R := by
  induction acts generalizing now s with
  | nil => simp
  | cons act acts ih =>
    have le := since _ List.mem_cons_self
    obtain ⟨inv, marks⟩ := wait now act.1 s.core le same start
    have stays : Steady suite origin recorded act.1 (s.atTime act.1).core :=
      steady.mono (same ▸ positive) le
    have counted := regular.counted _ List.mem_cons_self
    rw [← same] at counted
    have act_step := stays.step (same ▸ positive) (regular.follows _ List.mem_cons_self)
      (regular.keeps _ List.mem_cons_self) counted (effect_perform act.1 act.2 s)
    obtain ⟨inv', mark, kept⟩ := step ⟨s, act, _, _⟩ act_step inv
    obtain ⟨first, ordered⟩ := List.pairwise_cons.1 regular.ordered
    obtain ⟨rest, pairwise⟩ := ih
      ⟨ordered, fun a mem => regular.follows a (List.mem_cons_of_mem _ mem),
        fun a mem => regular.keeps a (List.mem_cons_of_mem _ mem),
        fun a mem => regular.counted a (List.mem_cons_of_mem _ mem)⟩
      first act_step.after (act_step.effect.tolerance_eq.trans same) inv'
    simp only [log_cons, List.mem_cons, List.pairwise_cons, forall_eq_or_imp]
    exact ⟨fun past there => ⟨(kept past (marks past there)).1,
      rest past (kept past (marks past there)).2⟩, rest _ mark, pairwise⟩

/-- The same for what the acts report. -/
theorem Regular.pairwise_reports {R : Report → Report → Prop} (Inv : Nat → Core → Prop)
    (Mark : Report → Nat → Core → Prop) {acts : List (Nat × Act)} {s : Station}
    (positive : Positive recorded tolerance)
    (wait : ∀ now later c, now ≤ later → c.tolerance = tolerance → Inv now c →
      Inv later c ∧ ∀ past, Mark past now c → Mark past later c)
    (step : ∀ (t : Station) (now : Nat) (act : Act) (report : Report) (c : Core),
      Step suite origin recorded now t act report c → Inv now t.core →
      Inv now c ∧ Mark report now c ∧
        ∀ past, Mark past now t.core → R past report ∧ Mark past now c)
    (regular : Regular origin recorded tolerance acts) (since : ∀ act ∈ acts, now ≤ act.1)
    (steady : Steady suite origin recorded now s.core) (same : s.core.tolerance = tolerance)
    (start : Inv now s.core) :
    (∀ past, Mark past now s.core → ∀ report ∈ reports suite acts s, R past report) ∧
      (reports suite acts s).Pairwise R := by
  obtain ⟨marked, pairwise⟩ := regular.pairwise_log (R := fun a b => R a.report b.report) Inv
    (fun past => Mark past.report) positive
    (fun now later c le same inv => (wait now later c le same inv).imp_right
      fun kept past => kept past.report)
    (fun e act_step inv => by
      obtain ⟨inv', mark, kept⟩ := step _ _ _ _ _ act_step inv
      exact ⟨inv', mark, fun past => kept past.report⟩)
    since steady same start
  simp only [reports_eq_map_log, List.forall_mem_map, List.pairwise_map]
  exact ⟨fun past there => marked ⟨s, (now, .stop), past, s⟩ there, pairwise⟩

end SealedStream.Station
