import SealedStream.Proofs.Rollover.Plan
import SealedStream.Proofs.Station.Effects

/-!
# Genuine secrets at all times

If every link comes from the origin of its pair, then all secrets of a station are genuine at all
times, whatever happens to it: those it stores and those it holds. The held secrets of a pair stand
in the order of their periods.

## Main definitions

* `Station.Sound` — the secrets of a station are genuine, and their latencies allowed.
* `Station.Act.Follows` — an act brings no links and no latencies but the allowed ones.
* `Station.Fits` — periods have a length, and are counts at some time.

## Main statements

* `Station.Sound.effect` — whatever an act does, the station stays sound.
* `Station.Sound.planned_stored`, `Station.Sound.planned_held` — what rollovers say in a sound
  station.
-/

namespace SealedStream

open Std

variable {suite : Suite} {origin : Pair → Origin}

/-! ## Rows -/

theorem Vault.lasting_genuine : Lasting (·.Genuine suite origin) :=
  fun _ _ _ real => ⟨real.link, real.key⟩

theorem PeriodSecret.Genuine.of_chained {s : PeriodSecret}
    (chained : s = .ofChain suite origin s.pair s.period) : s.Genuine suite origin := by
  rw [chained]
  exact genuine_ofChain ..

namespace Vault.GenuineRows

variable {rows : ExtTreeMap PeriodId PeriodSecret} (genuine : GenuineRows suite origin rows)
include genuine

theorem rowsOf : RowsOf (·.Genuine suite origin) rows := genuine

theorem eraseAll (ids : List PeriodId) : GenuineRows suite origin (ids.foldl (·.erase ·) rows) :=
  genuine.rowsOf.eraseAll ids

theorem putAll {secrets : List PeriodSecret}
    (chained : ∀ s ∈ secrets, s = .ofChain suite origin s.pair s.period) :
    GenuineRows suite origin (secrets.foldl put rows) :=
  genuine.rowsOf.putAll lasting_genuine fun s mem => .of_chained (chained s mem)

end Vault.GenuineRows

namespace Station

/-! ## What enrolling derives -/

/-- The chain's secrets of the three periods around `current`. -/
def around (suite : Suite) (origin : Pair → Origin) (pair : Pair) (current : Nat) :
    List PeriodSecret :=
  [.ofChain suite origin pair (current - 1), .ofChain suite origin pair current,
    .ofChain suite origin pair (current + 1)]

theorem chained_around (pair : Pair) (current : Nat) :
    ∀ s ∈ around suite origin pair current, s = .ofChain suite origin s.pair s.period := by
  simp [around]

theorem liveSecrets_eq {pair : Pair} {current : Nat} (pos : 0 < current)
    (handshake : Key) (eq : handshake = (origin pair).handshake) :
    liveSecrets suite ((origin pair).link pair) current handshake =
      around suite origin pair current := by
  obtain ⟨last, rfl⟩ : ∃ last, current = last + 1 := ⟨current - 1, by omega⟩
  have walked := Suite.walk_chain suite (origin pair).handshake (Nat.zero_le last)
    (by decide : 0 < Count.top)
  simp only [Suite.chain] at walked
  simp only [liveSecrets, eq, Nat.add_sub_cancel, walked]
  rfl

theorem storedForm_values {p : PeriodSecret → Prop} {rows : ExtTreeMap PeriodId PeriodSecret}
    (of : Vault.RowsOf p rows) (s : PeriodSecret) :
    storedForm rows.values s = (rows[s.id]?).getD s := by
  have row_of {x : PeriodSecret} (mem : x ∈ rows.values) (same : x.id = s.id) :
      rows[s.id]? = some x := by
    obtain ⟨id, there⟩ := mem_values.1 mem
    rw [← same, (of id x there).1, there]
  unfold storedForm
  cases found : rows.values.find? (·.id = s.id) with
  | some x =>
    have same := List.find?_some found
    rw [row_of (List.mem_of_find?_eq_some found) (by simpa using same)]
  | none =>
    cases row : rows[s.id]? with
    | none => rfl
    | some x =>
      have := List.find?_eq_none.1 found x (mem_values.2 ⟨s.id, row⟩)
      simp [(of s.id x row).1] at this

/-! ## Held secrets -/

/-- The secrets of a trio are genuine and of one pair, and their periods are in a row. -/
def Aligned (suite : Suite) (origin : Pair → Origin) (pair : Pair) (trio : Trio) : Prop :=
  ∃ first : Int, ∀ turn s, trio.get turn = some s →
    s.pair = pair ∧ (s.period : Int) = first + turn.offset ∧ s.Genuine suite origin

theorem storedForm_ofChain {rows : ExtTreeMap PeriodId PeriodSecret}
    (genuine : Vault.GenuineRows suite origin rows) (pair : Pair) (period : Nat) :
    (storedForm rows.values (.ofChain suite origin pair period)).id = ⟨pair, period⟩ ∧
      (storedForm rows.values (.ofChain suite origin pair period)).Genuine suite origin := by
  rw [storedForm_values genuine.rowsOf, PeriodSecret.id_ofChain]
  cases row : rows[(⟨pair, period⟩ : PeriodId)]? with
  | none => exact ⟨rfl, PeriodSecret.genuine_ofChain ..⟩
  | some x => exact genuine _ x row

/-- Every place of an enrolled trio is taken by a secret of its period. -/
theorem get_trioOf (suite : Suite) (origin : Pair → Origin) (pair : Pair) {current : Nat}
    (pos : 0 < current) (form : PeriodSecret → PeriodSecret) (turn : Turn) :
    ∃ period : Nat, (period : Int) = current + turn.offset ∧
      (trioOf ((around suite origin pair current).map form)).get turn =
        some (form (.ofChain suite origin pair period)) := by
  cases turn with
  | old => exact ⟨current - 1, by simp only [Turn.offset]; omega, rfl⟩
  | current => exact ⟨current, by simp only [Turn.offset]; omega, rfl⟩
  | new => exact ⟨current + 1, by simp only [Turn.offset]; omega, rfl⟩

theorem periods_trioOf {rows : ExtTreeMap PeriodId PeriodSecret}
    (genuine : Vault.GenuineRows suite origin rows) (pair : Pair) (current : Nat) :
    (trioOf ((around suite origin pair current).map (storedForm rows.values))).periods =
      [some (current - 1), some current, some (current + 1)] := by
  have period_eq (period : Nat) :
      (storedForm rows.values (.ofChain suite origin pair period)).period = period :=
    congrArg PeriodId.period (storedForm_ofChain genuine pair period).1
  simp only [around, List.map_cons, List.map_nil, trioOf, Trio.periods, Turn.all, Trio.get,
    List.getElem?_cons_zero, List.getElem?_cons_succ, Option.map_some, period_eq]

/-- The stored forms of the secrets that enrolling derives stand in a row. -/
theorem aligned_trioOf {rows : ExtTreeMap PeriodId PeriodSecret}
    (genuine : Vault.GenuineRows suite origin rows) (pair : Pair) {current : Nat}
    (pos : 0 < current) :
    Aligned suite origin pair
      (trioOf ((around suite origin pair current).map (storedForm rows.values))) := by
  refine ⟨current, ?_⟩
  intro turn s stands
  obtain ⟨period, place, there⟩ := get_trioOf suite origin pair pos (storedForm rows.values) turn
  obtain rfl := Option.some.inj (there.symm.trans stands)
  obtain ⟨named, real⟩ := storedForm_ofChain genuine pair period
  obtain ⟨own, same⟩ := PeriodId.mk.inj named
  exact ⟨own, by rw [same, place], real⟩

/-! ## Soundness -/

/-- An act enrolls no link but that of its pair's origin, and brings no latencies but allowed
ones. -/
def Act.Follows (origin : Pair → Origin) (allowed : Transport → Nat → Prop) : Act → Prop
  | .enroll link latency handshake =>
    link = (origin link.toPair).link link.toPair ∧
      handshake = (origin link.toPair).handshake ∧ allowed link.transport latency
  | .react (.transportUp transport latency) => allowed transport latency
  | _ => True

/-- With the allowed latencies, the current period of every pair is a count. -/
def Counted (origin : Pair → Origin) (tolerance : Nat) (allowed : Transport → Nat → Prop)
    (now : Nat) : Prop :=
  ∀ (pair : Pair) (latency current : Nat), allowed pair.transport latency →
    Schedule.periodAt (origin pair).epoch (Schedule.interval latency tolerance) now =
      some current → current ≤ Count.top

/-- However short the periods are, they are counts as long as the clock reads less. -/
theorem counted_of_lt {origin : Pair → Origin} {tolerance : Nat} {allowed : Transport → Nat → Prop}
    {now : Nat} (lt : now < Count.top) : Counted origin tolerance allowed now := by
  intro pair latency current _ at_now
  obtain ⟨-, rfl⟩ := Schedule.of_periodAt at_now
  have le := Nat.div_le_self (now - (origin pair).epoch) (Schedule.interval latency tolerance)
  omega

/-- With the allowed latencies, periods have a length, and at `now` they are counts. -/
structure Fits (origin : Pair → Origin) (tolerance : Nat) (allowed : Transport → Nat → Prop)
    (now : Nat) : Prop where
  pos : ∀ transport latency, allowed transport latency → 0 < Schedule.interval latency tolerance
  counted : Counted origin tolerance allowed now

/-- Stored and held secrets are genuine, and all latencies are allowed. -/
structure Sound (suite : Suite) (origin : Pair → Origin) (allowed : Transport → Nat → Prop)
    (c : Core) : Prop where
  rows : Vault.GenuineRows suite origin c.vault.rows
  held : ∀ (pair : Pair) (trio : Trio), c.held[pair]? = some trio → Aligned suite origin pair trio
  known : ∀ (pair : Pair) (trio : Trio), c.held[pair]? = some trio →
    ∃ latency, c.latencies[pair.transport]? = some latency
  recorded : ∀ (transport : Transport) (latency : Nat),
    c.vault.latencies[transport]? = some latency → allowed transport latency
  latencies : ∀ (transport : Transport) (latency : Nat),
    c.latencies[transport]? = some latency → allowed transport latency

variable {allowed : Transport → Nat → Prop} {now : Nat}

/-- Genuine secrets that are told apart by their identities are in order for a rollover. -/
theorem Fits.orderly {tolerance : Nat} {latencies : ExtTreeMap Transport Nat}
    {secrets : List PeriodSecret} (fits : Fits origin tolerance allowed now)
    (allowed_of : ∀ (transport : Transport) (latency : Nat),
      latencies[transport]? = some latency → allowed transport latency)
    (genuine : ∀ s ∈ secrets, s.Genuine suite origin)
    (distinct : ∀ s ∈ secrets, ∀ t ∈ secrets, s.id = t.id → s = t) :
    Rollover.Orderly origin now latencies tolerance suite secrets where
  genuine := genuine
  distinct := distinct
  pos _ _ latency h := fits.pos _ latency (allowed_of _ latency h)
  le_top s _ latency current h at_now :=
    fits.counted s.pair latency current (allowed_of _ latency h) at_now

namespace Sound

variable {c : Core} (sound : Sound suite origin allowed c)
include sound

theorem genuine_stored : ∀ s ∈ c.vault.rows.values, s.Genuine suite origin := by
  intro s mem
  obtain ⟨id, there⟩ := mem_values.1 mem
  exact (sound.rows id s there).2

theorem genuine_held : ∀ s ∈ c.held.values.flatMap Trio.secrets, s.Genuine suite origin := by
  intro s mem
  obtain ⟨pair, trio, turn, there, stands⟩ := mem_heldSecrets.1 mem
  obtain ⟨first, aligned⟩ := sound.held pair trio there
  exact (aligned turn s stands).2.2

/-- Held secrets are told apart by their identities. -/
theorem distinct_held : ∀ s ∈ c.held.values.flatMap Trio.secrets,
    ∀ t ∈ c.held.values.flatMap Trio.secrets, s.id = t.id → s = t := by
  intro s mem t mem' same
  obtain ⟨pair, trio, turn, there, stands⟩ := mem_heldSecrets.1 mem
  obtain ⟨pair', trio', turn', there', stands'⟩ := mem_heldSecrets.1 mem'
  obtain ⟨first, aligned⟩ := sound.held pair trio there
  obtain ⟨first', aligned'⟩ := sound.held pair' trio' there'
  obtain ⟨own, place, -⟩ := aligned turn s stands
  obtain ⟨own', place', -⟩ := aligned' turn' t stands'
  obtain ⟨same_pair, period⟩ := PeriodId.mk.inj same
  obtain rfl : pair = pair' := own.symm.trans (same_pair.trans own')
  obtain rfl := Option.some.inj (there.symm.trans there')
  obtain ⟨-, place'', -⟩ := aligned turn' t stands'
  obtain rfl : turn = turn' := Turn.offset_injective (by omega)
  exact Option.some.inj (stands.symm.trans stands')

theorem linked_stored : Rollover.Linked origin c.vault.rows.values where
  link s mem := (sound.genuine_stored s mem).link
  distinct _ mem _ mem' same := sound.rows.rowsOf.eq_of_mem mem mem' same

theorem linked_held : Rollover.Linked origin c.secrets where
  link s mem := (sound.genuine_held s mem).link
  distinct := sound.distinct_held

variable (fits : Fits origin c.tolerance allowed now)
include fits

theorem planned_stored {r : Rollover}
    (plans : Rollover.plan suite now c.vault.latencies c.tolerance c.vault.rows.values = .ok r) :
    Rollover.Planned suite origin now c.vault.latencies c.tolerance c.vault.rows.values r :=
  (fits.orderly sound.recorded sound.genuine_stored sound.linked_stored.distinct).planned plans

theorem planned_held {r : Rollover}
    (plans : Rollover.plan suite now c.latencies c.tolerance (c.held.values.flatMap Trio.secrets) =
      .ok r) :
    Rollover.Planned suite origin now c.latencies c.tolerance
      (c.held.values.flatMap Trio.secrets) r := by
  exact (fits.orderly sound.latencies sound.genuine_held sound.distinct_held).planned plans

end Sound

section Rolled

variable {latencies : ExtTreeMap Transport Nat} {tolerance : Nat} {secrets : List PeriodSecret}
  {r : Rollover} (planned : Rollover.Planned suite origin now latencies tolerance secrets r)
include planned

theorem chained_created : ∀ s ∈ r.created, s = .ofChain suite origin s.pair s.period :=
  fun s mem => ((planned.mem_created s).1 mem).1

/-- Held secrets stand where their distance to the current period puts them. -/
theorem aligned_held (genuine : ∀ s ∈ secrets, s.Genuine suite origin) {pair : Pair} {trio : Trio}
    (there : r.held[pair]? = some trio) : Aligned suite origin pair trio := by
  have get_iff (turn : Turn) (s : PeriodSecret) := planned.get_held pair turn s
  simp only [there, Option.bind_some] at get_iff
  refine ⟨(Rollover.cycle? origin now latencies tolerance pair).getD 0, ?_⟩
  intro turn s stands
  obtain ⟨own, mem, c, hc, place⟩ := (get_iff turn s).1 stands
  refine ⟨own, by rw [hc, place]; rfl, ?_⟩
  rcases mem with mem | mem
  · exact genuine s mem
  · rw [chained_created planned s mem]
    exact PeriodSecret.genuine_ofChain ..

theorem known_held {pair : Pair} {trio : Trio} (there : r.held[pair]? = some trio) :
    ∃ latency, latencies[pair.transport]? = some latency := by
  have occupied := planned.held_ne_vacant pair trio there
  simp only [Trio.vacant_iff, not_forall] at occupied
  obtain ⟨turn, occupied⟩ := occupied
  obtain ⟨s, stands⟩ := Option.ne_none_iff_exists'.1 occupied
  obtain ⟨-, -, c, hc, -⟩ := (planned.get_held pair turn s).1 (by rw [there]; exact stands)
  obtain ⟨latency, known, -⟩ := Option.map_eq_some_iff.1 hc
  exact ⟨latency, known⟩

end Rolled

theorem liveSecrets_of_follows {link : Link} {latency current : Nat} {handshake : Key}
    (follows : (Act.enroll link latency handshake).Follows origin allowed) (pos : 0 < current) :
    liveSecrets suite link current handshake = around suite origin link.toPair current := by
  obtain ⟨link_eq, handshake_eq, -⟩ := follows
  rw [← liveSecrets_eq pos handshake handshake_eq, ← link_eq]

theorem Sound.genuineRows_enrolled {s : Station} {link : Link} {latency current : Nat}
    {handshake : Key} {rows : ExtTreeMap PeriodId PeriodSecret}
    (sound : Sound suite origin allowed s.core)
    (follows : (Act.enroll link latency handshake).Follows origin allowed) (pos : 0 < current)
    (reached :
      let derived := liveSecrets suite link current handshake
      let added := derived.foldl Vault.put s.core.vault.rows
      rows = added ∨ rows = (staleIds s.keyring link.toPair derived).foldl (·.erase ·) added) :
    Vault.GenuineRows suite origin rows := by
  have added := sound.rows.putAll (chained_around link.toPair current)
  rw [← liveSecrets_of_follows follows pos] at added
  rcases reached with rfl | rfl
  · exact added
  · exact added.eraseAll _

/-- A latency may be recorded if it is allowed. -/
theorem allowed_insert {latencies : ExtTreeMap Transport Nat} {transport : Transport}
    {latency : Nat} (old : ∀ (transport : Transport) (latency : Nat),
      latencies[transport]? = some latency → allowed transport latency)
    (new : allowed transport latency) (transport' : Transport) (latency' : Nat)
    (there : (latencies.insert transport latency)[transport']? = some latency') :
    allowed transport' latency' := by
  rw [ExtTreeMap.getElem?_insert] at there
  split at there
  · rename_i own
    obtain rfl := LawfulEqCmp.compare_eq_iff_eq.1 own
    cases there
    exact new
  · exact old transport' latency' there

/-- What has a latency still has one after another was recorded. -/
theorem known_insert {latencies : ExtTreeMap Transport Nat} {transport : Transport}
    (old : ∃ latency, latencies[transport]? = some latency) (transport' : Transport)
    (latency' : Nat) :
    ∃ latency, (latencies.insert transport' latency')[transport]? = some latency := by
  rw [ExtTreeMap.getElem?_insert]
  split
  · exact ⟨latency', rfl⟩
  · exact old

/-- The latencies that are left after one was erased are allowed. -/
theorem allowed_erase {latencies : ExtTreeMap Transport Nat}
    (old : ∀ (transport : Transport) (latency : Nat),
      latencies[transport]? = some latency → allowed transport latency)
    (erased transport : Transport) (latency : Nat)
    (there : (latencies.erase erased)[transport]? = some latency) : allowed transport latency := by
  rw [ExtTreeMap.getElem?_erase] at there
  split at there
  · cases there
  · exact old transport latency there

/-! ## What acts leave sound -/

namespace Sound

/-- Enrolling a link leaves its secrets in a row. -/
theorem enrolled {s : Station} (sound : Sound suite origin allowed s.core) {link : Link}
    {latency current : Nat} {handshake : Key} {rows : ExtTreeMap PeriodId PeriodSecret}
    {directory : Directory} {unlisted : ExtTreeSet PeriodId}
    (follows : (Act.enroll link latency handshake).Follows origin allowed) (pos : 0 < current)
    (genuine : Vault.GenuineRows suite origin rows) :
    let secrets := (liveSecrets suite link current handshake).map (storedForm rows.values)
    Sound suite origin allowed
      { s.core with
        vault.rows := rows
        latencies := s.core.latencies.insert link.transport latency
        held := s.core.held.insert link.toPair (trioOf secrets)
        directory, unlisted } := by
  intro secrets
  refine ⟨genuine, ?_, ?_, sound.recorded, allowed_insert sound.latencies follows.2.2⟩
  · intro pair trio there
    rw [ExtTreeMap.getElem?_insert] at there
    split at there
    · rename_i own
      obtain rfl := LawfulEqCmp.compare_eq_iff_eq.1 own
      cases there
      unfold secrets
      rw [liveSecrets_of_follows follows pos]
      exact aligned_trioOf genuine _ pos
    · exact sound.held pair trio there
  · intro pair trio there
    rw [ExtTreeMap.getElem?_insert] at there
    split at there
    · rename_i own
      obtain rfl := LawfulEqCmp.compare_eq_iff_eq.1 own
      exact ⟨latency, by simp⟩
    · exact known_insert (sound.known pair trio there) _ _

variable {c c' : Core} (sound : Sound suite origin allowed c)
include sound

/-- Where nothing is held, only what is stored matters. -/
theorem emptied (vault : c'.vault = c.vault) (held : c'.held = ∅) (latencies : c'.latencies = ∅) :
    Sound suite origin allowed c' where
  rows := vault ▸ sound.rows
  held := by simp [held]
  known := by simp [held]
  recorded := vault ▸ sound.recorded
  latencies := by simp [latencies]

/-- Pairs may be given up, and latencies that no other pair needs. -/
theorem forget (p : Pair → Bool) (held : c'.held = c.held.filter fun pair _ => p pair)
    (rows : Vault.GenuineRows suite origin c'.vault.rows)
    (recorded : ∀ (transport : Transport) (latency : Nat),
      c'.vault.latencies[transport]? = some latency → allowed transport latency)
    (latencies : ∀ (transport : Transport) (latency : Nat),
      c'.latencies[transport]? = some latency → allowed transport latency)
    (needed : ∀ pair, p pair = true →
      c'.latencies[pair.transport]? = c.latencies[pair.transport]?) :
    Sound suite origin allowed c' := by
  have of_held {pair : Pair} {trio : Trio} (there : c'.held[pair]? = some trio) :
      c.held[pair]? = some trio ∧ p pair = true := by
    rwa [held, ExtTreeMap.getElem?_filter', Option.filter_eq_some_iff] at there
  refine ⟨rows, ?_, ?_, recorded, latencies⟩
  · intro pair trio there
    exact sound.held pair trio (of_held there).1
  · intro pair trio there
    obtain ⟨before, stays⟩ := of_held there
    rw [needed pair stays]
    exact sound.known pair trio before

end Sound

/-- Whatever an act does, the station stays sound. -/
theorem Sound.effect {s : Station} {act : Act} {report : Report} {c : Core}
    (sound : Sound suite origin allowed s.core) (follows : act.Follows origin allowed)
    (fits : Fits origin s.core.tolerance allowed now)
    (effect : Effect suite now s act report c) : Sound suite origin allowed c := by
  have rows : Vault.GenuineRows suite origin c.vault.rows := by
    refine effect.rowsOf Vault.lasting_genuine sound.rows ?_ ?_ ?_
    · rintro link latency handshake current rfl at_now x mem
      rw [liveSecrets_of_follows follows (Schedule.pos_of_periodAt at_now)] at mem
      exact .of_chained (chained_around _ _ x mem)
    · exact fun r plans x mem =>
        .of_chained (chained_created (sound.planned_stored fits plans) x mem)
    · exact fun r plans x mem =>
        .of_chained (chained_created (sound.planned_held fits plans) x mem)
  cases effect with
  | kept => exact sound
  | enrolling | starting | startRefused | rotating | issued | recognized =>
    exact { sound with rows := rows }
  | enrolled at_now => exact sound.enrolled follows (Schedule.pos_of_periodAt at_now) rows
  | started plans =>
    have planned := sound.planned_stored fits plans
    exact ⟨rows, fun _ _ there => aligned_held planned sound.genuine_stored there,
      fun _ _ there => known_held planned there, sound.recorded, sound.recorded⟩
  | rotated quiet plans =>
    have planned := sound.planned_held fits plans
    exact ⟨rows, fun _ _ there => aligned_held planned sound.genuine_held there,
      fun _ _ there => known_held planned there, sound.recorded, sound.latencies⟩
  | contactGone => exact sound.forget _ rfl rows sound.recorded sound.latencies fun _ _ => rfl
  | transportUp =>
    exact { sound with
      known := fun pair trio there => known_insert (sound.known pair trio there) _ _
      latencies := allowed_insert sound.latencies follows }
  | transportGone reached =>
    refine sound.forget _ rfl rows ?_ (allowed_erase sound.latencies _) ?_
    · rcases reached with rfl | rfl
      · exact sound.recorded
      · exact allowed_erase sound.recorded _
    · intro pair stays
      have other : pair.transport ≠ _ := of_decide_eq_true stays
      simp [ExtTreeMap.getElem?_erase, other.symm]
  | stopped | replaced | restarted => exact sound.emptied rfl rfl rfl

theorem Effect.tolerance_eq {s : Station} {act : Act} {report : Report} {c : Core}
    (effect : Effect suite now s act report c) : c.tolerance = s.core.tolerance := by
  cases effect <;> rfl

/-! ## Runs -/

theorem tolerance_run (acts : List (Nat × Act)) (s : Station) :
    (s.run suite acts).core.tolerance = s.core.tolerance := by
  refine run_induction (fun t => t.core.tolerance = s.core.tolerance) ?_ rfl
  intro t now act _ eq
  exact (effect_perform now act t).tolerance_eq.trans eq

/-- A sound station is sound after every act. -/
theorem Sound.perform {s : Station} {act : Act} (sound : Sound suite origin allowed s.core)
    (follows : act.Follows origin allowed) (fits : Fits origin s.core.tolerance allowed now) :
    Sound suite origin allowed (s.perform suite now act).2.core := by
  have sound' : Sound suite origin allowed (s.atTime now).core := sound
  exact sound'.effect follows fits (effect_perform now act s)

/-- A sound station is sound after every run. -/
theorem Sound.run {acts : List (Nat × Act)} {s : Station}
    (sound : Sound suite origin allowed s.core)
    (follows : ∀ act ∈ acts, act.2.Follows origin allowed)
    (fits : ∀ act ∈ acts, Fits origin s.core.tolerance allowed act.1) :
    Sound suite origin allowed (s.run suite acts).core := by
  refine (run_induction (fun t => Sound suite origin allowed t.core ∧
    t.core.tolerance = s.core.tolerance) ?_ ⟨sound, rfl⟩).1
  rintro t now act mem ⟨sound, eq⟩
  exact ⟨sound.perform (follows _ mem) (eq ▸ fits _ mem),
    (effect_perform now act t).tolerance_eq.trans eq⟩

/-- A keyring that was never started, at a post that stores no secrets, is sound. -/
theorem sound_stopped {settings : Settings} {serial : Nat} {post : Post}
    (blank : post.vault.vault.rows = ∅)
    (recorded : ∀ (transport : Transport) (latency : Nat),
      post.vault.vault.latencies[transport]? = some latency → allowed transport latency) :
    Sound suite origin allowed (core ⟨.stopped settings serial, post⟩) where
  rows := by
    intro id s there
    rw [show (core ⟨.stopped settings serial, post⟩).vault.rows = ∅ from blank] at there
    simp at there
  held := by simp [core, Keyring.stopped]
  known := by simp [core, Keyring.stopped]
  recorded := recorded
  latencies := by simp [core, Keyring.stopped]

end Station

end SealedStream
