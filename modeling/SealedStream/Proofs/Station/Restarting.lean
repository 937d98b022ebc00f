import SealedStream.Proofs.Station.InStep
import SealedStream.Proofs.Station.Premature

/-!
# Starting again

A running keyring carries its secrets along from act to act. One that is started takes them from the
vault. When both have just rolled over at the same time, they come out the same: the keyring holds the
same secrets, opens the same streams next, and recognizes the same tags. So a keyring that was just
rotated may be stopped and started again, and nobody can tell.

## Main definitions

* `Station.Alike` — stations that nobody can tell apart by what they hold, open and recognize.
* `Station.UpToDate` — every held secret stands in its place, and no place after one is empty.
* `Station.startAgain` — stopping and starting a keyring.
* `Station.Event`, `Station.history` — runs in which latencies are recorded between the acts.

## Main statements

* `Station.upToDate_rotated` — a rotation brings the held secrets up to date.
* `Station.InStep.startAgain`, `Station.InStep.alike_startAgain` — what becomes of a keyring that is up to
  date when it starts again.
* `Station.rotated_starts_again` — nobody can tell after a rotation, whatever has happened before.
-/

namespace SealedStream.Station

open Std SealedStream.Action

variable {suite : Suite} {origin : Pair → Origin} {allowed : Transport → Nat → Prop} {now : Nat}
  {s t : Station} {c : Core}

/-! ## What a station reports -/

/-- The next stream of a pair: that of its current secret, with the number that the row tells. -/
def Core.opens (c : Core) (pair : Pair) : Report :=
  (((c.held[pair]?).bind (·.get .current)).bind fun x =>
    (c.vault.rows[(⟨pair, x.period⟩ : PeriodId)]?).map fun row =>
      .opened ⟨pair, x.period⟩ ⟨pair, x.key, row.outgoing, x.link.side⟩).getD .nothing

/-- A reliable vault reserves the number that a row tells. -/
theorem onVault_reserve_of_reliable {id : PeriodId} {r : Except KeyringFault (Option Nat)}
    (reliable : s.core.Reliable) (ends : (onVault .reserve (Vault.reserve id)).Ends s r t) :
    r = .ok ((s.core.vault.rows[id]?).map (·.outgoing)) := by
  obtain ⟨g, rfl, -, ⟨-, -, unreliable⟩ | ⟨r', reserved, rfl⟩⟩ := onVault_cases ends
  · exact absurd reliable unreliable
  · rw [Vault.reserve_of_writable reliable.1 reserved]
    rfl

/-- With a reliable vault, the next stream is opened. -/
theorem report_issue (suite : Suite) (reliable : s.core.Reliable) (pair : Pair) :
    ((Act.issue pair).perform suite s).1 = s.core.opens pair := by
  rw [Core.opens, show (fun trio : Trio => trio.get .current) = (·.current) from rfl]
  have ends := ends_toExcept (issue pair) s
  rw [show s.core.held = s.keyring.held from rfl]
  simp only [Act.perform]
  generalize (issue pair).toExcept s = ended at ends ⊢
  obtain ⟨r, t⟩ := ended
  simp only [issue, ends_get_bind_iff] at ends
  cases held : (s.keyring.held[pair]?).bind (·.current) with
  | none => rfl
  | some x =>
    simp only [held] at ends
    rcases ends_bind_iff.1 ends with ⟨_, reserved, rfl⟩ | ⟨stream, u, reserved, rest⟩
    · cases onVault_reserve_of_reliable reliable reserved
    · obtain rfl := Except.ok.inj (onVault_reserve_of_reliable reliable reserved)
      cases row : s.core.vault.rows[(⟨pair, x.period⟩ : PeriodId)]? with
      | none =>
        simp only [row, Option.map_none, ends_pure_iff] at rest
        simp [rest.1, row]
      | some y =>
        simp only [row, Option.map_some, ends_pure_iff] at rest
        simp [rest.1, row]

/-- With a reliable vault, a tag is recognized or its stream was seen. -/
theorem report_recognize_cases (suite : Suite) (reliable : s.core.Reliable) (bytes : Bytes) :
    ((Act.recognize bytes).perform suite s).1 = .nothing ∧
        (∀ id number listing, s.post.directory.lookup? bytes = some (id, number) →
          s.post.directory.listings[id]? = some listing → listing.window.mark? number = none) ∨
      ∃ id ticket window directory,
        ((Act.recognize bytes).perform suite s).1 = .answered id ticket ∧
          Registry.Recognizes suite bytes s.post.directory id ticket window directory := by
  have ends := ends_toExcept (Registry.recognize suite bytes) s.post.toRegistry
  simp only [Act.perform]
  generalize (Registry.recognize suite bytes).toExcept s.post.toRegistry = ended at ends ⊢
  obtain ⟨r, g⟩ := ended
  obtain ⟨-, ⟨-, -, nothing, unseen⟩ | ⟨id, ticket, window, rfl, -, recognizes, -⟩⟩ :=
    Registry.recognize_cases ends
  · refine .inl ⟨?_, unseen (GuardedVault.Reliable.accepts reliable .setWindow)⟩
    dsimp only
    split
    · exact absurd rfl (nothing _)
    · rfl
  · exact .inr ⟨id, ticket, window, g.directory, by simp only [recognizes.lookup], recognizes⟩

/-- What is recognized with a reliable vault is up to the directory. -/
theorem report_recognize_congr (suite : Suite) (reliable : s.core.Reliable)
    (reliable' : t.core.Reliable) (same : s.post.directory = t.post.directory) (bytes : Bytes) :
    ((Act.recognize bytes).perform suite s).1 = ((Act.recognize bytes).perform suite t).1 := by
  have seen {s t : Station} (same : s.post.directory = t.post.directory)
      (unseen : ∀ id number listing, s.post.directory.lookup? bytes = some (id, number) →
        s.post.directory.listings[id]? = some listing → listing.window.mark? number = none)
      {id : PeriodId} {ticket : Ticket} {window : SeenWindow} {directory : Directory} :
      ¬ Registry.Recognizes suite bytes t.post.directory id ticket window directory := by
    intro recognizes
    obtain ⟨listing, entered, tag, there, -, marks, -⟩ := recognizes.listed
    rw [← same] at there
    cases (unseen id _ listing (same ▸ recognizes.lookup) there).symm.trans marks
  rcases report_recognize_cases suite reliable bytes with
    ⟨nothing, unseen⟩ | ⟨id, ticket, window, d, answered, recognizes⟩ <;>
  rcases report_recognize_cases suite reliable' bytes with
    ⟨nothing', unseen'⟩ | ⟨id', ticket', window', d', answered', recognizes'⟩
  · rw [nothing, nothing']
  · exact absurd recognizes' (seen same unseen)
  · exact absurd recognizes (seen same.symm unseen')
  · obtain ⟨rfl, stream⟩ :=
      Prod.mk.inj (Option.some.inj (recognizes.lookup.symm.trans (same ▸ recognizes'.lookup)))
    obtain ⟨listing, -, -, there, -, -, eq, -⟩ := recognizes.listed
    obtain ⟨listing', -, -, there', -, -, eq', -⟩ := recognizes'.listed
    obtain rfl := Option.some.inj (there.symm.trans (same ▸ there'))
    rw [answered, answered', eq, eq', stream]

/-- Two stations hold secrets of the same identities and keys in the same places. They open the same
streams next, and recognize the same tags. -/
structure Alike (suite : Suite) (s t : Station) : Prop where
  held : ∀ (pair : Pair) (turn : Turn),
    ((s.core.held[pair]?).bind (·.get turn)).map (fun x => (x.id, x.key)) =
      ((t.core.held[pair]?).bind (·.get turn)).map fun x => (x.id, x.key)
  directory : s.core.directory = t.core.directory
  issue : ∀ (later : Nat) (pair : Pair),
    (s.perform suite later (.issue pair)).1 = (t.perform suite later (.issue pair)).1
  recognize : ∀ (later : Nat) (bytes : Bytes),
    (s.perform suite later (.recognize bytes)).1 = (t.perform suite later (.recognize bytes)).1

/-- With reliable vaults, this is up to what is held, listed and opened. -/
theorem alike_of_reliable (reliable : s.core.Reliable) (reliable' : t.core.Reliable)
    (held : ∀ (pair : Pair) (turn : Turn),
      ((s.core.held[pair]?).bind (·.get turn)).map (fun x => (x.id, x.key)) =
        ((t.core.held[pair]?).bind (·.get turn)).map fun x => (x.id, x.key))
    (directory : s.core.directory = t.core.directory)
    (opens : ∀ pair, s.core.opens pair = t.core.opens pair) : Alike suite s t where
  held := held
  directory := directory
  issue later pair := by
    refine (report_issue (s := s.atTime later) suite reliable pair).trans ((opens pair).trans ?_)
    exact (report_issue (s := t.atTime later) suite reliable' pair).symm
  recognize later bytes :=
    report_recognize_congr (s := s.atTime later) (t := t.atTime later) suite reliable reliable'
      directory bytes

/-! ## Secrets that are up to date -/

/-- Every held secret stands in its place at `now`, and of the places after it none is empty. -/
structure UpToDate (origin : Pair → Origin) (now : Nat) (c : Core) : Prop where
  stands : ∀ (pair : Pair) (turn : Turn) (x : PeriodSecret),
    (c.held[pair]?).bind (·.get turn) = some x →
      ∃ cycle, Rollover.cycle? origin now c.latencies c.tolerance pair = some cycle ∧
        (x.period : Int) = cycle + turn.offset
  full : ∀ x ∈ c.secrets, ∀ (latency current period : Nat) (turn : Turn),
    c.latencies[x.pair.transport]? = some latency →
      Schedule.periodAt (origin x.pair).epoch (Schedule.interval latency c.tolerance) now =
        some current →
      turn.period current = some period → x.period < period → ∃ y ∈ c.secrets, y.id = ⟨x.pair, period⟩

/-- A rollover of the held secrets brings them up to date. -/
theorem upToDate_rolled {c : Core} {r : Rollover} {secrets : List PeriodSecret}
    (planned : Rollover.Planned suite origin now c.latencies c.tolerance secrets r)
    (held : c.held = r.held) (positive : ∀ (transport : Transport) (latency : Nat),
      c.latencies[transport]? = some latency → 0 < Schedule.interval latency c.tolerance) :
    UpToDate origin now c where
  stands pair turn x stands := by
    rw [held] at stands
    exact ((planned.get_held pair turn x).1 stands).2.2
  full := by
    intro x mem latency current period turn known at_now target before
    rw [Core.secrets, held] at mem ⊢
    have place := Turn.eq_add_offset_of_period target
    have cycle : Rollover.cycle? origin now c.latencies c.tolerance x.pair = some (current : Int) := by
      rw [Rollover.cycle?, known, Option.map_some, Option.some.injEq]
      exact ((Schedule.periodAt_eq_some_iff (positive _ _ known)).1 at_now).2.symm
    have held_of {y : PeriodSecret} (named : y.id = ⟨x.pair, period⟩)
        (mem : y ∈ secrets ∨ y ∈ r.created) : ∃ y ∈ r.held.values.flatMap Trio.secrets,
          y.id = ⟨x.pair, period⟩ := by
      obtain ⟨own, same⟩ := PeriodId.mk.inj named
      obtain ⟨trio, there, stands⟩ := Option.bind_eq_some_iff.1
        ((planned.get_held x.pair turn y).2 ⟨own, mem, current, cycle, by rw [same, place]⟩)
      exact ⟨y, mem_heldSecrets.2 ⟨x.pair, trio, turn, there, stands⟩, named⟩
    by_cases given : ∃ y ∈ secrets, y.id = ⟨x.pair, period⟩
    · obtain ⟨y, mem, named⟩ := given
      exact held_of named (.inl mem)
    -- A secret that is not there is derived from the one before it, or from where that one came from.
    refine held_of (PeriodSecret.id_ofChain suite origin x.pair period)
      (.inr ((planned.mem_created _).2 ⟨rfl, ⟨latency, current, turn, known, at_now, target⟩, ?_, ?_⟩))
    · rcases mem_of_rolled planned mem with given | created
      · exact ⟨x, given, rfl, before⟩
      · obtain ⟨-, -, ⟨source, given, own, earlier⟩, -⟩ := (planned.mem_created x).1 created
        exact ⟨source, given, own, earlier.trans before⟩
    · exact fun y mem same => given ⟨y, mem, same⟩

/-- A rotation brings the held secrets up to date. -/
theorem upToDate_rotated (sound : Sound suite origin allowed s.core)
    (fits : Fits origin s.core.tolerance allowed now) (effect : Effect suite now s .rotate .done c) :
    UpToDate origin now c := by
  cases effect with
  | rotated quiet plans =>
    exact upToDate_rolled (sound.planned_held fits plans) rfl
      fun transport latency known => fits.pos _ _ (sound.latencies _ _ known)

/-! ## Stopping and starting again -/

/-- A rollover that derives and retires nothing leaves the rows as they are. -/
theorem persisted_of_nil {r : Rollover} {rows : ExtTreeMap PeriodId PeriodSecret}
    (created : r.created = []) (retired : r.retired = []) : persisted r rows = rows := by
  rw [persisted, stored, created, retired]
  rfl

section Stored

variable (settled : Settled suite origin allowed c) (lists : c.ListsRows suite)
include settled lists

/-- Where the directory lists what is held and what is stored, the same is held and stored. -/
theorem Settled.stored_iff {id : PeriodId} : id ∈ c.vault.rows ↔ ∃ x ∈ c.secrets, x.id = id := by
  rw [← settled.mirrored, ExtTreeMap.mem_iff_isSome_getElem?, ExtTreeMap.mem_iff_isSome_getElem?,
    lists, Option.isSome_map]

/-- A held secret is stored with its identity, its key and its link. -/
theorem Settled.exists_row {pair : Pair} {turn : Turn} {x : PeriodSecret}
    (held : (c.held[pair]?).bind (·.get turn) = some x) :
    ∃ y, c.vault.rows[x.id]? = some y ∧ y.id = x.id ∧ y.key = x.key ∧ y.link = x.link := by
  obtain ⟨trio, there, stands⟩ := Option.bind_eq_some_iff.1 held
  obtain ⟨first, aligned⟩ := settled.sound.held pair trio there
  obtain ⟨rfl, -, genuine⟩ := aligned turn x stands
  have stored : x.id ∈ c.vault.rows :=
    (settled.stored_iff lists).2 ⟨x, mem_heldSecrets.2 ⟨_, trio, turn, there, stands⟩, rfl⟩
  have row := ExtTreeMap.getElem?_eq_some_getElem stored
  obtain ⟨named, genuine'⟩ := settled.sound.rows _ _ row
  have own : (c.vault.rows[x.id]).pair = x.pair := congrArg PeriodId.toPair named
  exact ⟨_, row, named, genuine'.key_eq genuine named, by rw [genuine'.link, genuine.link, own]⟩

/-- Listed anew, the stored secrets are listed as they were. -/
theorem Settled.listed_anew (fits : Fits origin c.tolerance allowed now) {r : Rollover}
    (plans : Rollover.plan suite now c.vault.latencies c.tolerance c.vault.rows.values = .ok r)
    (created : r.created = []) (retired : r.retired = []) :
    listAllIn suite (r.held.values.flatMap Trio.secrets) .empty = c.directory := by
  have listings : (listAllIn suite (r.held.values.flatMap Trio.secrets) .empty).listings =
      c.directory.listings := by
    refine ExtTreeMap.ext_getElem? fun id => ?_
    rw [listsRows_started settled.sound fits rfl plans, persisted_of_nil created retired, lists]
  have planned := settled.sound.planned_stored fits plans
  refine (Directory.exact_empty.addAll (fun x mem y mem' => ?_) (fun id l there => ?_) ?_).eq_of_listings
    settled.exact listings
  · have given {x : PeriodSecret} (mem : x ∈ r.held.values.flatMap Trio.secrets) :
        x ∈ c.vault.rows.values :=
      (mem_of_rolled planned mem).resolve_right (by simp [created])
    exact settled.sound.linked_stored.distinct x (given mem) y (given mem')
  · simp at there
  · refine settled.exact.tellApart.mono ?_
    rintro id n tag ⟨l, there, rest⟩
    exact ⟨l, listings ▸ there, rest⟩

variable (fits : Fits origin c.tolerance allowed now) (upToDate : UpToDate origin now c)
  (agree : ∀ pair ∈ c.held, c.vault.latencies[pair.transport]? = c.latencies[pair.transport]?)
include upToDate agree

/-- With the recorded latencies, every stored secret stands where its held copy does. -/
theorem Settled.stands_stored {s : PeriodSecret} (mem : s ∈ c.vault.rows.values) :
    s.pair ∈ c.held ∧ ∃ (turn : Turn) (x : PeriodSecret) (cycle : Int),
      (c.held[s.pair]?).bind (·.get turn) = some x ∧ x.id = s.id ∧
        Rollover.cycle? origin now c.vault.latencies c.tolerance s.pair = some cycle ∧
        (s.period : Int) = cycle + turn.offset := by
  obtain ⟨id, there⟩ := mem_values.1 mem
  obtain ⟨rfl, -⟩ := settled.sound.rows id s there
  obtain ⟨x, held, same⟩ := (settled.stored_iff lists).1
    (show s.id ∈ c.vault.rows by simp [ExtTreeMap.mem_iff_isSome_getElem?, there])
  obtain ⟨pair, trio, turn, there, stands⟩ := mem_heldSecrets.1 held
  obtain ⟨own, period⟩ := PeriodId.mk.inj same
  obtain rfl : pair = s.pair := ((settled.sound.tied.held pair trio there).pair_eq stands).symm.trans own
  replace stands : (c.held[s.pair]?).bind (·.get turn) = some x := by rw [there]; exact stands
  obtain ⟨cycle, at_now, place⟩ := upToDate.stands _ turn x stands
  have known : s.pair ∈ c.held := by simp [ExtTreeMap.mem_iff_isSome_getElem?, there]
  refine ⟨known, turn, x, cycle, stands, same, ?_, period ▸ place⟩
  rw [Rollover.cycle?, agree _ known]
  exact at_now

/-- A stored secret stands near the current period. -/
theorem Settled.near_stored {s : PeriodSecret} (mem : s ∈ c.vault.rows.values) {cycle : Int}
    (current : Rollover.cycle? origin now c.vault.latencies c.tolerance s.pair = some cycle) :
    cycle - 1 ≤ s.period ∧ (s.period : Int) ≤ cycle + 1 := by
  obtain ⟨-, turn, -, cycle', -, -, current', place⟩ := settled.stands_stored lists upToDate agree mem
  obtain rfl := Option.some.inj (current.symm.trans current')
  have near := turn.offset_near
  omega

include fits in
/-- So a rollover of what is stored works out. -/
theorem Settled.exists_plan_stored :
    ∃ r, Rollover.plan suite now c.vault.latencies c.tolerance c.vault.rows.values = .ok r := by
  have orderly := fits.orderly settled.sound.recorded settled.sound.genuine_stored
    settled.sound.linked_stored.distinct
  exact orderly.exists_plan fun s mem cycle current =>
    (settled.near_stored lists upToDate agree mem current).2

section Planned

variable {r : Rollover} (planned : Rollover.Planned suite origin now c.vault.latencies c.tolerance
  c.vault.rows.values r)
include planned

/-- What would be derived is held already, and so it is stored. -/
theorem Settled.created_stored : r.created = [] := by
  refine List.eq_nil_iff_forall_not_mem.2 fun x mem => ?_
  obtain ⟨-, ⟨latency, current, turn, known, at_now, target⟩, ⟨source, given, own, before⟩, fresh⟩ :=
    (planned.mem_created x).1 mem
  obtain ⟨there, turn', y, cycle, held, same, -⟩ :=
    settled.stands_stored lists upToDate agree given
  obtain ⟨trio, there', stands⟩ := Option.bind_eq_some_iff.1 held
  obtain ⟨pair, period⟩ : y.pair = source.pair ∧ y.period = source.period := PeriodId.mk.inj same
  replace pair : y.pair = x.pair := Eq.trans pair own
  obtain ⟨z, held, named⟩ := upToDate.full y (mem_heldSecrets.2 ⟨_, trio, _, there', stands⟩)
    latency current x.period turn (by rw [pair, ← own, ← agree _ there, own, known])
    (by rw [pair, at_now]) target (by omega)
  have stored : x.id ∈ c.vault.rows :=
    (settled.stored_iff lists).2 ⟨z, held, named.trans (by rw [pair]; rfl)⟩
  have row := ExtTreeMap.getElem?_eq_some_getElem stored
  exact fresh _ (mem_values.2 ⟨_, row⟩) (settled.sound.rows _ _ row).1

/-- Nothing that is stored is out of date, or of no known transport. -/
theorem Settled.retired_stored : r.retired = [] := by
  rw [Rollover.retired, List.map_eq_nil_iff, List.append_eq_nil_iff,
    List.eq_nil_iff_forall_not_mem, List.eq_nil_iff_forall_not_mem]
  constructor
  · intro s dead
    obtain ⟨mem, cycle, current, past⟩ := (planned.mem_dead s).1 dead
    have near := settled.near_stored lists upToDate agree mem current
    omega
  · intro s orphaned
    obtain ⟨mem, unknown⟩ := (planned.mem_orphaned s).1 orphaned
    obtain ⟨-, -, -, cycle, -, -, current, -⟩ := settled.stands_stored lists upToDate agree mem
    simp [Rollover.cycle?, unknown] at current

/-- What is held then is what is stored of the held secrets. -/
theorem Settled.held_stored (pair : Pair) (turn : Turn) : (r.held[pair]?).bind (·.get turn) =
    ((c.held[pair]?).bind (·.get turn)).bind fun x => c.vault.rows[x.id]? := by
  refine Option.ext fun y => ?_
  rw [planned.get_held, settled.created_stored lists upToDate agree planned, Option.bind_eq_some_iff]
  constructor
  · rintro ⟨rfl, mem | none, cycle, current, place⟩
    · obtain ⟨-, turn', x, cycle', held, same, current', place'⟩ :=
        settled.stands_stored lists upToDate agree mem
      obtain rfl := Option.some.inj (current.symm.trans current')
      obtain rfl : turn = turn' := Turn.offset_injective (by omega)
      obtain ⟨id, there⟩ := mem_values.1 mem
      exact ⟨x, held, by rw [same, (settled.sound.rows id y there).1, there]⟩
    · simp at none
  · rintro ⟨x, held, there⟩
    have mem : y ∈ c.vault.rows.values := mem_values.2 ⟨x.id, there⟩
    obtain ⟨own, period⟩ := PeriodId.mk.inj (settled.sound.rows _ y there).1
    obtain ⟨trio, there', stands⟩ := Option.bind_eq_some_iff.1 held
    have same : y.pair = pair :=
      Eq.trans own ((settled.sound.tied.held pair trio there').pair_eq stands)
    obtain ⟨cycle, current, place⟩ := upToDate.stands pair turn x held
    refine ⟨same, .inl mem, cycle, ?_, by omega⟩
    rw [Rollover.cycle?, agree pair (by simp [ExtTreeMap.mem_iff_isSome_getElem?, there'])]
    exact current

end Planned

end Stored

/-- Stops the keyring and starts it again. -/
def startAgain (suite : Suite) (now : Nat) (s : Station) : Report × Station :=
  (s.perform suite now .stop).2.perform suite now .start

/-- A keyring that is stopped holds and lists nothing, but the vault stays. -/
theorem core_stop (t : Station) : t.stop.core =
    if t.keyring.running then
      { t.core with latencies := ∅, held := ∅, unlisted := ∅, directory := .empty }
    else t.core := by
  unfold stop
  split <;> rfl

theorem running_stop (t : Station) : t.stop.keyring.running = false := by
  unfold stop
  split
  · rfl
  · rename_i idle
    exact Bool.eq_false_iff.2 idle

/-- Where nothing fails, a keyring starts again if a rollover of what is stored works out. -/
theorem startAgain_smooth (smooth : t.core.Smooth) {r : Rollover}
    (plans : Rollover.plan suite now t.core.vault.latencies t.core.tolerance
      t.core.vault.rows.values = .ok r) :
    (t.startAgain suite now).1 = .done ∧ (t.startAgain suite now).2.core =
      { t.stop.core with
        vault.rows := persisted r t.stop.core.vault.rows
        latencies := t.stop.core.vault.latencies
        held := r.held
        directory := listAllIn suite (r.held.values.flatMap Trio.secrets) t.stop.core.directory } := by
  -- What is started is the stopped station, but for the clock.
  obtain ⟨u, found⟩ : ∃ u, u = (t.atTime now).stop.atTime now := ⟨_, rfl⟩
  have core_eq : u.core = t.stop.core := by
    rw [core_stop, found]
    exact core_stop (t.atTime now)
  have stopped : t.stop.core.Smooth ∧ startPlan suite u = .ok r := by
    rw [startPlan, core_eq, core_stop, found]
    split
    · exact ⟨⟨smooth.reliable, smooth.willing⟩, plans⟩
    · exact ⟨smooth, plans⟩
  have done : (Act.start.perform suite u).1 = .done := by
    simp only [Act.perform, settle, start_of_smooth (ends_toExcept ..) (core_eq ▸ stopped.1)
      (found ▸ running_stop (t.atTime now)) stopped.2]
  have effect : Effect suite u.post.agenda.now u .start _ _ := effect_act .start u
  rw [startAgain, show (t.perform suite now .stop).2.perform suite now .start =
    Act.start.perform suite u from found ▸ rfl, ← core_eq]
  refine ⟨done, ?_⟩
  rw [done] at effect
  generalize (Act.start.perform suite u).2.core = c at effect ⊢
  cases effect with
  | started plans' =>
    obtain rfl := Except.ok.inj (stopped.2.symm.trans plans')
    rfl
  | rotated _ _ _ rolls => simp at rolls

/-- A keyring that is up to date starts again with what it held, in the form in which it is stored. The
vault and the directory are as they were. -/
theorem InStep.startAgain (inStep : InStep suite origin allowed t) (running : t.keyring.running = true)
    (fits : Fits origin t.core.tolerance allowed now) (upToDate : UpToDate origin now t.core)
    (agree : ∀ pair ∈ t.core.held,
      t.core.vault.latencies[pair.transport]? = t.core.latencies[pair.transport]?) :
    (t.startAgain suite now).1 = .done ∧
      let again := (t.startAgain suite now).2.core
      again.Reliable ∧ again.vault = t.core.vault ∧ again.directory = t.core.directory ∧
        ∀ (pair : Pair) (turn : Turn), (again.held[pair]?).bind (·.get turn) =
          ((t.core.held[pair]?).bind (·.get turn)).bind fun x => t.core.vault.rows[x.id]? := by
  have lists := inStep.running running
  have settled := inStep.settled
  obtain ⟨r, plans⟩ := settled.exists_plan_stored lists fits upToDate agree
  have planned := settled.sound.planned_stored fits plans
  have created := settled.created_stored lists upToDate agree planned
  have retired := settled.retired_stored lists upToDate agree planned
  obtain ⟨done, eq⟩ := startAgain_smooth settled.smooth plans
  rw [core_stop, if_pos running, persisted_of_nil created retired] at eq
  refine ⟨done, ?_⟩
  rw [eq]
  exact ⟨settled.reliable, rfl, settled.listed_anew lists fits plans created retired,
    settled.held_stored lists upToDate agree planned⟩

/-- Nobody can tell a running keyring that is up to date from itself started again. -/
theorem InStep.alike_startAgain (inStep : InStep suite origin allowed t)
    (running : t.keyring.running = true) (fits : Fits origin t.core.tolerance allowed now)
    (upToDate : UpToDate origin now t.core)
    (agree : ∀ pair ∈ t.core.held,
      t.core.vault.latencies[pair.transport]? = t.core.latencies[pair.transport]?) :
    (t.startAgain suite now).1 = .done ∧ Alike suite (t.startAgain suite now).2 t := by
  have row_of {pair : Pair} {turn : Turn} {x : PeriodSecret}
      (held : (t.core.held[pair]?).bind (·.get turn) = some x) :=
    inStep.settled.exists_row (inStep.running running) held
  obtain ⟨done, reliable, vault, directory, held⟩ := inStep.startAgain running fits upToDate agree
  refine ⟨done, alike_of_reliable reliable inStep.settled.reliable (fun pair turn => ?_) directory
    fun pair => ?_⟩
  · rw [held]
    cases stands : (t.core.held[pair]?).bind (·.get turn) with
    | none => rfl
    | some x =>
      obtain ⟨y, row, named, key, -⟩ := row_of stands
      rw [Option.bind_some, row, Option.map_some, Option.map_some, named, key]
  · rw [Core.opens, held, vault, Core.opens]
    cases stands : (t.core.held[pair]?).bind (·.get .current) with
    | none => rfl
    | some x =>
      obtain ⟨y, row, named, key, link⟩ := row_of stands
      obtain ⟨-, period⟩ : y.pair = x.pair ∧ y.period = x.period := PeriodId.mk.inj named
      rw [Option.bind_some, row, Option.bind_some, Option.bind_some, key, link, period]

/-! ## Runs -/

/-- What happens where others record latencies in the vault of a keyring. -/
inductive Event where
  | acts (now : Nat) (act : Act)
  | record (transport : Transport) (latency : Nat)

/-- Lets an event happen. -/
def Event.befall (suite : Suite) : Event → Station → Report × Station
  | .acts now act, s => s.perform suite now act
  | .record transport latency, s =>
    (.nothing, { s with post.vault.vault := s.post.vault.vault.setLatency transport latency })

/-- The events of a run, each with the stations that it found and left. -/
abbrev history (suite : Suite) (events : List Event) (s : Station) :
    List (Log.Entry Station Event Report) :=
  SealedStream.log (Event.befall suite) events s

/-- The run tells of each event what it found and left. -/
theorem mem_history (suite : Suite) (earlier later : List Event) (event : Event) (s : Station) :
    let found := earlier.foldl (fun s event => (event.befall suite s).2) s
    ⟨found, event, (event.befall suite found).1, (event.befall suite found).2⟩ ∈
      history suite (earlier ++ event :: later) s := by
  induction earlier generalizing s with
  | nil => exact List.mem_cons_self
  | cons first earlier ih => exact List.mem_cons_of_mem _ (ih _)

/-- The event brings no link but that of its pair's origin and no latencies but allowed ones, and finds
the periods to be counts. -/
def Event.Follows (origin : Pair → Origin) (tolerance : Nat) (allowed : Transport → Nat → Prop) :
    Event → Prop
  | .acts now act => act.Follows origin allowed ∧ Fits origin tolerance allowed now
  | .record transport latency => allowed transport latency

/-- The act befits a keyring that runs or one that does not. -/
def Event.Befits : Event → Bool → Prop
  | .acts _ act, on => act.Befits on
  | .record .., _ => True

instance (event : Event) (on : Bool) : Decidable (event.Befits on) :=
  match event with
  | .acts _ act => inferInstanceAs (Decidable (act.Befits on))
  | .record .. => inferInstanceAs (Decidable True)

/-- A keyring was never started, at a post that stores and lists nothing. In the run nothing fails, each
pair has one origin, and the awaited streams are always told apart. -/
structure Untroubled (suite : Suite) (origin : Pair → Origin) (allowed : Transport → Nat → Prop)
    (settings : Settings) (serial : Nat) (post : Post) (events : List Event) : Prop where
  blank : post.vault.vault.rows = ∅
  unlisted : post.directory = .empty
  smooth : (core ⟨.stopped settings serial, post⟩).Smooth
  recorded : ∀ (transport : Transport) (latency : Nat),
    post.vault.vault.latencies[transport]? = some latency → allowed transport latency
  follows : ∀ event ∈ events, event.Follows origin settings.tolerance allowed
  befits : ∀ e ∈ history suite events ⟨.stopped settings serial, post⟩,
    e.act.Befits e.before.keyring.running
  whole : ∀ e ∈ history suite events ⟨.stopped settings serial, post⟩, e.after.post.directory.Whole
  apart : ∀ e ∈ history suite events ⟨.stopped settings serial, post⟩,
    TellApart (e.after.post.directory.Awaits suite)

theorem InStep.atTime (inStep : InStep suite origin allowed t) (now : Nat) :
    InStep suite origin allowed (t.atTime now) where
  settled := inStep.settled
  running := inStep.running
  idle := inStep.idle

/-- What is recorded comes into play when the keyring is started. -/
theorem InStep.record (inStep : InStep suite origin allowed t) {transport : Transport} {latency : Nat}
    (allow : allowed transport latency) :
    InStep suite origin allowed ((Event.record transport latency).befall suite t).2 where
  settled :=
    { inStep.settled with
      sound := { inStep.settled.sound with
        recorded := allowed_insert inStep.settled.sound.recorded allow }
      unopposed := ⟨inStep.settled.unopposed.1, inStep.settled.unopposed.2⟩ }
  running := inStep.running
  idle := inStep.idle

variable {settings : Settings} {serial : Nat} {post : Post} {events : List Event}

/-- An untroubled run stays in step. -/
theorem Untroubled.inStep (untroubled : Untroubled suite origin allowed settings serial post events)
    {e : Log.Entry Station Event Report}
    (mem : e ∈ history suite events ⟨.stopped settings serial, post⟩) :
    (InStep suite origin allowed e.before ∧ e.before.core.tolerance = settings.tolerance) ∧
      InStep suite origin allowed e.after ∧ e.after.core.tolerance = settings.tolerance := by
  refine invariant_of_log
    (fun s => InStep suite origin allowed s ∧ s.core.tolerance = settings.tolerance)
    ⟨inStep_stopped untroubled.blank untroubled.unlisted untroubled.smooth untroubled.recorded, rfl⟩
    (fun e mem before => ?_) e mem
  obtain ⟨inStep, tolerance⟩ := before
  obtain ⟨event, -, after⟩ := of_mem_log mem
  have follows := untroubled.follows _ event
  have befits := untroubled.befits e mem
  have whole := untroubled.whole e mem
  have apart := untroubled.apart e mem
  rw [after] at whole apart ⊢
  cases happens : e.act with
  | acts now act =>
    rw [happens] at follows befits whole apart
    refine ⟨(inStep.atTime now).perform follows.1 (tolerance ▸ follows.2) befits whole apart, ?_⟩
    exact (effect_perform now act e.before).tolerance_eq.trans tolerance
  | record transport latency =>
    rw [happens] at follows
    exact ⟨inStep.record follows, tolerance⟩

/-- A rotation of a running keyring is done, and the latencies of the pairs that it holds are the recorded
ones. Then nobody can tell it from itself stopped and started again at the same time. -/
theorem rotated_starts_again
    (untroubled : Untroubled suite origin allowed settings serial post events)
    {e : Log.Entry Station Event Report}
    (mem : e ∈ history suite events ⟨.stopped settings serial, post⟩)
    (rotates : e.act = .acts now .rotate) (done : e.report = .done)
    (running : e.before.keyring.running = true)
    (agree : ∀ pair ∈ e.after.core.held,
      e.after.core.vault.latencies[pair.transport]? = e.after.core.latencies[pair.transport]?) :
    (e.after.startAgain suite now).1 = .done ∧ Alike suite (e.after.startAgain suite now).2 e.after := by
  obtain ⟨⟨before, tolerance⟩, inStep, tolerance'⟩ := untroubled.inStep mem
  obtain ⟨event, report, after⟩ := of_mem_log mem
  have follows := untroubled.follows _ event
  rw [rotates] at follows report after
  have on : e.after.keyring.running = true := by
    rw [after]
    exact (congrArg Duty.running (duty_perform suite .rotate (e.before.atTime now))).trans running
  have effect : Effect suite now (e.before.atTime now) .rotate e.report e.after.core := by
    rw [report, after]
    exact effect_perform now .rotate e.before
  rw [done] at effect
  have upToDate : UpToDate origin now e.after.core :=
    upToDate_rotated (before.atTime now).settled.sound (tolerance ▸ follows.2) effect
  exact inStep.alike_startAgain on (tolerance' ▸ follows.2) upToDate agree

/-- Latencies do not change, and the streams can be read off their tags. -/
theorem untroubled_of_read (read : Tag → PeriodId × Nat)
    (follows : ∀ event ∈ events, event.Follows (fun _ => ⟨0, .alice, .wiped⟩)
      Settings.standard.tolerance fun _ latency => latency = 20)
    (entries : ∀ e ∈ history bare events ⟨.stopped .standard 0, Peer.postAt ⟨.empty, .clear⟩ 0⟩,
      e.act.Befits e.before.keyring.running ∧ e.after.post.directory.Whole ∧
        ∀ x ∈ e.after.post.directory.awaited bare, read x.1 = x.2) :
    Untroubled bare (fun _ => ⟨0, .alice, .wiped⟩) (fun _ latency => latency = 20) .standard 0
      (Peer.postAt ⟨.empty, .clear⟩ 0) events where
  blank := rfl
  unlisted := rfl
  smooth := ⟨⟨rfl, fun _ _ => rfl⟩, fun _ _ => rfl⟩
  recorded := by simp [Peer.postAt, Vault.empty]
  follows := follows
  befits e mem := (entries e mem).1
  whole e mem := (entries e mem).2.1
  apart e mem := Directory.tellApart_of_read read (entries e mem).2.2

theorem fits_standard {now : Nat} (early : now ≤ 4000000) : Fits (fun _ => ⟨0, .alice, .wiped⟩)
    Settings.standard.tolerance (fun _ latency => latency = 20) now :=
  ⟨by rintro _ _ rfl; decide, counted_of_lt (early.trans_lt (by decide))⟩

/-- Streams are opened and recognized, and a later rotation derives a secret. -/
theorem rotated_starts_again_later :
    let earlier : List Event := [.record "tcp" 20, .acts 0 .start,
      .acts 1000 (.enroll ⟨⟨1, "tcp"⟩, 0, .alice⟩ 20 .wiped), .acts 2000 (.issue ⟨1, "tcp"⟩),
      .acts 3000 (.recognize (1 :: 2 :: Bytes.zeros 14))]
    let before := earlier.foldl (fun s event => (event.befall bare s).2)
      ⟨.stopped .standard 0, Peer.postAt ⟨.empty, .clear⟩ 0⟩
    let rotated := (Event.acts 4000000 .rotate).befall bare before
    rotated.1 = .done ∧ rotated.2.core.secrets.map (·.period) = [1, 2, 3] ∧
      (rotated.2.startAgain bare 4000000).1 = .done ∧
      Alike bare (rotated.2.startAgain bare 4000000).2 rotated.2 := by
  intro earlier before rotated
  obtain ⟨running, done, agree, periods⟩ : before.keyring.running = true ∧ rotated.1 = .done ∧
      rotated.2.core.vault.latencies = rotated.2.core.latencies ∧
        rotated.2.core.secrets.map (·.period) = [1, 2, 3] := by
    decide +kernel
  refine ⟨done, periods, ?_⟩
  have mem : ⟨before, .acts 4000000 .rotate, rotated.1, rotated.2⟩ ∈
      history bare (earlier ++ [.acts 4000000 .rotate]) _ :=
    mem_history bare earlier [] (.acts 4000000 .rotate) _
  have untroubled := @untroubled_of_read (earlier ++ [.acts 4000000 .rotate])
    (fun tag => (⟨⟨1, "tcp"⟩, tag[0].toNat⟩, tag[2].toNat))
    (by simp [earlier, Event.Follows, Act.Follows, Origin.link, fits_standard])
    (by decide +kernel)
  -- Nothing more is read off the run.
  clear_value rotated before
  have again := rotated_starts_again untroubled mem rfl done running fun pair _ => by rw [agree]
  exact again

/-- A notice was on its way when the keyring was stopped, so the latency that it knows is the recorded
one. It holds nothing and there is nothing to rotate, but the stored secrets are held again once it is
started. -/
theorem not_alike_rotated_stopped :
    let earlier : List Event := [.record "tcp" 20, .acts 0 .start,
      .acts 1000 (.enroll ⟨⟨1, "tcp"⟩, 0, .alice⟩ 20 .wiped), .acts 2000 .stop,
      .acts 2000 (.react (.transportUp "tcp" 20))]
    let before := earlier.foldl (fun s event => (event.befall bare s).2)
      ⟨.stopped .standard 0, Peer.postAt ⟨.empty, .clear⟩ 0⟩
    let rotated := (Event.acts 2000 .rotate).befall bare before
    let again := rotated.2.startAgain bare 2000
    Untroubled bare (fun _ => ⟨0, .alice, .wiped⟩) (fun _ latency => latency = 20) .standard 0
        (Peer.postAt ⟨.empty, .clear⟩ 0) (earlier ++ [.acts 2000 .rotate]) ∧
      rotated.1 = .done ∧ rotated.2.core.vault.latencies = rotated.2.core.latencies ∧
      rotated.2.core.secrets = [] ∧ again.2.core.secrets.map (·.period) = [0, 1, 2] ∧
      ¬ Alike bare again.2 rotated.2 := by
  intro earlier before rotated again
  refine ⟨untroubled_of_read (fun tag => (⟨⟨1, "tcp"⟩, tag[0].toNat⟩, tag[2].toNat))
    (by simp [earlier, Event.Follows, Act.Follows, Origin.link, fits_standard]) (by decide +kernel),
    by decide +kernel, by decide +kernel, by decide +kernel, by decide +kernel, fun alike => ?_⟩
  exact absurd (alike.held ⟨1, "tcp"⟩ .current) (by decide +kernel)

end SealedStream.Station
