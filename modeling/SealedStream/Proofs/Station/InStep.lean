import SealedStream.Proofs.Index
import SealedStream.Proofs.Station.Duty
import SealedStream.Proofs.Station.Finding
import SealedStream.Proofs.Station.Reliable
import SealedStream.Proofs.Station.Removal

/-!
# The directory in step with the vault

What a running keyring lists goes its own way: windows move with every stream that is recognized, and
secrets are listed and taken off one by one. What it stores goes another way. If nothing fails, the two
stay in step: the directory lists just the stored secrets, each with the window of its row, and under
just the tags of the streams that its window may still take.

## Main definitions

* `Station.Core.ListsRows` — the directory lists the stored secrets as they are stored.
* `Station.Settled` — nothing fails, and the directory lists just what is held, under the right tags.
* `Station.InStep` — a settled station whose running keyring lists what is stored, and whose idle one
  holds nothing.

## Main statements

* `Station.Settled.listsRows_effect` — what leaves the directory in step with the vault.
* `Station.Settled.exact_effect` — what leaves the directory exact.
* `Station.InStep.perform` — no act leaves a station out of step.
-/

namespace SealedStream.Station

open Std SealedStream.Action

variable {suite : Suite} {origin : Pair → Origin} {allowed : Transport → Nat → Prop} {now : Nat}
  {s : Station} {act : Act} {report : Report} {c c' : Core}

/-- The directory lists the stored secrets, as they are stored, and no others. -/
def Core.ListsRows (suite : Suite) (c : Core) : Prop :=
  ∀ id : PeriodId, c.directory.listings[id]? = (c.vault.rows[id]?).map (Listing.ofSecret suite)

/-! ## Enrolling -/

section Enrolled

variable {link : Link} {latency current : Nat} {handshake : Key}
  {rows : ExtTreeMap PeriodId PeriodSecret} (sound : Sound suite origin allowed s.core)
  (follows : (Act.enroll link latency handshake).Follows origin allowed) (pos : 0 < current)
  (reached :
    let derived := liveSecrets suite link current handshake
    rows = (staleIds s.keyring link.toPair derived).foldl (·.erase ·)
      (derived.foldl Vault.put s.core.vault.rows))
include sound follows pos reached

/-- The rows after an enrollment: those of stale secrets are gone, and those of the derived ones are
there. -/
theorem getElem?_enrolled (id : PeriodId) :
    let derived := liveSecrets suite link current handshake
    rows[id]? = if id ∈ staleIds s.keyring link.toPair derived then none else
      (s.core.vault.rows[id]?).or (if ∃ x ∈ derived, x.id = id then
        some (.ofChain suite origin id.toPair id.period) else none) := by
  have chained : ∀ x ∈ around suite origin link.toPair current, x = _ :=
    chained_around link.toPair current
  rw [← liveSecrets_of_follows follows pos] at chained
  dsimp only at reached ⊢
  rw [reached, Vault.getElem?_eraseAll, Vault.getElem?_putAll sound.rows chained]

theorem Core.ListsRows.enrolled (lists : s.core.ListsRows suite) (id : PeriodId) :
    let derived := liveSecrets suite link current handshake
    (listAllIn suite (derived.map (storedForm rows.values))
      (unlistAllIn (staleIds s.keyring link.toPair derived) s.core.directory)).listings[id]? =
        (rows[id]?).map (Listing.ofSecret suite) := by
  intro derived
  have genuine := sound.genuineRows_enrolled follows pos (.inr reached)
  have row := getElem?_enrolled sound follows pos reached id
  by_cases live : ∃ x ∈ derived, x.id = id
  · obtain ⟨x, mem, rfl⟩ := live
    -- A derived secret is not stale, so its row is there, and it is listed as it is stored.
    have stays : x.id ∉ staleIds s.keyring link.toPair derived :=
      fun stale => (mem_staleIds.1 stale).2 x mem rfl
    obtain ⟨y, stored⟩ : ∃ y, rows[x.id]? = some y := by
      rw [row, if_neg stays, if_pos ⟨x, mem, rfl⟩]
      cases s.core.vault.rows[x.id]? with
      | none => exact ⟨_, rfl⟩
      | some y => exact ⟨y, rfl⟩
    have form : storedForm rows.values x = y := by
      rw [storedForm_values genuine.rowsOf, stored, Option.getD_some]
    have named : y.id = x.id := (genuine _ y stored).1
    have only : ∀ z ∈ derived.map (storedForm rows.values), z.id = y.id → z = y := by
      intro z mem' same
      obtain ⟨x', mem', rfl⟩ := List.mem_map.1 mem'
      rw [id_storedForm, named] at same
      rw [← form, storedForm_values genuine.rowsOf, storedForm_values genuine.rowsOf, same, stored]
      rfl
    rw [stored, Option.map_some, ← named]
    exact Directory.getElem?_listings_addAll_of_mem (form ▸ List.mem_map_of_mem mem) only
  · rw [listAllIn, Directory.getElem?_listings_addAll_of_forall_ne, unlistAllIn,
      Directory.getElem?_listings_removeAll, lists, row, if_neg live, Option.or_none]
    · split <;> rfl
    · intro y mem same
      obtain ⟨x, mem', rfl⟩ := List.mem_map.1 mem
      exact live ⟨x, mem', (id_storedForm _ _).symm.trans same⟩

end Enrolled

/-! ## Rolling over -/

/-- A rollover of the stored secrets leaves stored just what it holds. -/
theorem getElem?_persisted_eq_some_iff {latencies : ExtTreeMap Transport Nat} {tolerance : Nat}
    {rows : ExtTreeMap PeriodId PeriodSecret} {r : Rollover} (genuine : Vault.GenuineRows suite origin rows)
    (planned : Rollover.Planned suite origin now latencies tolerance rows.values r)
    (linked : Rollover.Linked origin rows.values)
    (plans : Rollover.plan suite now latencies tolerance rows.values = .ok r) {id : PeriodId}
    {x : PeriodSecret} :
    (persisted r rows)[id]? = some x ↔ x ∈ r.held.values.flatMap Trio.secrets ∧ x.id = id := by
  have row_of {y : PeriodSecret} (mem : y ∈ rows.values) : rows[y.id]? = some y := by
    obtain ⟨id, there⟩ := mem_values.1 mem
    rw [(genuine id y there).1, there]
  have fresh {y : PeriodSecret} (created : y ∈ r.created) : rows[y.id]? = none := by
    rw [Option.eq_none_iff_forall_ne_some]
    intro z there
    exact ((planned.mem_created y).1 created).2.2.2 z (mem_values.2 ⟨_, there⟩) (genuine _ z there).1
  constructor
  · intro stored
    rw [getElem?_persisted planned genuine] at stored
    obtain ⟨stays, stored⟩ := Option.ite_none_left_eq_some.1 stored
    rcases Option.or_eq_some_iff.1 stored with there | ⟨absent, derived⟩
    · have mem : x ∈ rows.values := mem_values.2 ⟨id, there⟩
      obtain rfl := (genuine id x there).1
      rw [linked.mem_retired plans mem, not_forall_not] at stays
      obtain ⟨turn, live⟩ := stays
      obtain ⟨trio, there, stands⟩ := Option.bind_eq_some_iff.1 (linked.held_of_live plans mem live)
      exact ⟨mem_heldSecrets.2 ⟨_, trio, turn, there, stands⟩, rfl⟩
    · obtain ⟨⟨y, created, rfl⟩, eq⟩ := Option.ite_none_right_eq_some.1 derived
      obtain ⟨-, -, turn, z, stands, same⟩ := linked.of_created plans created
      obtain ⟨trio, there, stands⟩ := Option.bind_eq_some_iff.1 stands
      have held : z ∈ r.held.values.flatMap Trio.secrets :=
        mem_heldSecrets.2 ⟨_, trio, turn, there, stands⟩
      rcases mem_of_rolled planned held with given | created'
      · rw [← same, row_of given] at absent
        cases absent
      · obtain rfl : x = z := by
          rw [chained_created planned z created', ← Option.some.inj eq, ← same]
          rfl
        exact ⟨held, same⟩
  · rintro ⟨held, rfl⟩
    rcases mem_of_rolled planned held with given | created
    · obtain ⟨pair, trio, turn, there, stands⟩ := mem_heldSecrets.1 held
      have live := (linked.of_held plans (Option.bind_eq_some_iff.2 ⟨trio, there, stands⟩)).2.2
      have stays : x.id ∉ r.retired := fun gone => (linked.mem_retired plans given).1 gone turn live
      rw [getElem?_persisted planned genuine, if_neg stays, row_of given, Option.some_or]
    · exact getElem?_persisted_of_created planned genuine created (fresh created)

section Rolled

variable {r : Rollover} (sound : Sound suite origin allowed c)
  (fits : Fits origin c.tolerance allowed now)
include sound fits

/-- A start lists what its rollover leaves stored. -/
theorem listsRows_started {d : Directory} (none : d.listings = ∅)
    (plans : Rollover.plan suite now c.vault.latencies c.tolerance
      c.vault.rows.values = .ok r) (id : PeriodId) :
    (listAllIn suite (r.held.values.flatMap Trio.secrets) d).listings[id]? =
      ((persisted r c.vault.rows)[id]?).map (Listing.ofSecret suite) := by
  have stored_iff {id : PeriodId} {x : PeriodSecret} :
      (persisted r c.vault.rows)[id]? = some x ↔ _ :=
    getElem?_persisted_eq_some_iff sound.rows (sound.planned_stored fits plans) sound.linked_stored plans
  by_cases held : ∃ x ∈ r.held.values.flatMap Trio.secrets, x.id = id
  · obtain ⟨x, mem, rfl⟩ := held
    have stored := stored_iff.2 ⟨mem, rfl⟩
    rw [stored, Option.map_some]
    refine Directory.getElem?_listings_addAll_of_mem mem fun y mem' same => ?_
    exact Option.some.inj ((stored_iff.2 ⟨mem', same⟩).symm.trans stored)
  · have gone : (persisted r c.vault.rows)[id]? = Option.none := by
      rw [Option.eq_none_iff_forall_ne_some]
      exact fun x there => held ⟨x, stored_iff.1 there⟩
    rw [listAllIn, Directory.getElem?_listings_addAll_of_forall_ne fun x mem same => held ⟨x, mem, same⟩,
      none, ExtTreeMap.getElem?_empty, gone, Option.map_none]

/-- A derived secret was not listed. -/
theorem unlisted_of_created (mirrored : c.Mirrored)
    (plans : Rollover.plan suite now c.latencies c.tolerance c.secrets = .ok r)
    {x : PeriodSecret} (mem : x ∈ r.created) : c.directory.listings[x.id]? = none := by
  refine ExtTreeMap.getElem?_eq_none fun listed => ?_
  obtain ⟨y, held, same⟩ := (mirrored x.id).1 listed
  exact (((sound.planned_held fits plans).mem_created x).1 mem).2.2.2 y held same

/-- A rotation takes off the directory what it removes from the vault, and lists what it stores. -/
theorem Core.ListsRows.rotated (lists : c.ListsRows suite) (mirrored : c.Mirrored)
    (plans : Rollover.plan suite now c.latencies c.tolerance c.secrets = .ok r)
    (id : PeriodId) :
    (listAllIn suite r.created (unlistAllIn r.summary.retired c.directory)).listings[id]? =
      ((persisted r c.vault.rows)[id]?).map (Listing.ofSecret suite) := by
  have planned := sound.planned_held fits plans
  by_cases derived : ∃ x ∈ r.created, x.id = id
  · obtain ⟨x, mem, rfl⟩ := derived
    have absent : c.vault.rows[x.id]? = none := by
      have unlisted := unlisted_of_created sound fits mirrored plans mem
      rwa [lists, Option.map_eq_none_iff] at unlisted
    rw [getElem?_persisted_of_created planned sound.rows mem absent, Option.map_some]
    refine Directory.getElem?_listings_addAll_of_mem mem fun y mem' same => ?_
    obtain ⟨pair, period⟩ := PeriodId.mk.inj same
    rw [chained_created planned x mem, chained_created planned y mem', show y.pair = x.pair from pair,
      period]
  · have retired : id ∈ r.summary.retired ↔ id ∈ r.retired := by
      simp [Rollover.summary, Rollover.sortIds]
    rw [listAllIn, Directory.getElem?_listings_addAll_of_forall_ne fun x mem same =>
      derived ⟨x, mem, same⟩, unlistAllIn, Directory.getElem?_listings_removeAll, lists,
      getElem?_persisted planned sound.rows, if_neg derived, Option.or_none]
    simp only [retired]
    split <;> rfl

end Rolled

/-! ## Settled stations -/

/-- Genuine secrets have the links of their pairs. -/
theorem Sound.tied (sound : Sound suite origin allowed c) : Tied origin c where
  rows id x there := ⟨(sound.rows id x there).1, (sound.rows id x there).2.link⟩
  held pair trio there := by
    obtain ⟨first, row⟩ := sound.held pair trio there
    constructor
    · intro turn x stands
      obtain ⟨own, -, real⟩ := row turn x stands
      rw [real.link, own]
    · intro turn turn' x y stands stands' same
      have place := (row turn x stands).2.1
      have place' := (row turn' y stands').2.1
      exact Turn.offset_injective (by omega)

/-- All secrets are genuine and nothing fails. The directory lists just the held secrets, under just the
tags of the streams that their windows may still take. -/
structure Settled (suite : Suite) (origin : Pair → Origin) (allowed : Transport → Nat → Prop)
    (c : Core) : Prop where
  sound : Sound suite origin allowed c
  reliable : c.Reliable
  unopposed : Unopposed c
  mirrored : c.Mirrored
  exact : c.directory.Exact suite
  whole : c.directory.Whole

theorem Settled.smooth (settled : Settled suite origin allowed c) : c.Smooth :=
  ⟨settled.reliable, settled.unopposed.willing⟩

theorem Core.secrets_eq_nil (none : c.held = ∅) : c.secrets = [] := by
  rw [Core.secrets, none]
  rfl

/-- Where nothing is held, nothing is listed. -/
theorem Settled.listings_eq_empty (settled : Settled suite origin allowed c) (none : c.held = ∅) :
    c.directory.listings = ∅ := by
  refine ExtTreeMap.eq_empty_iff_forall_not_mem.2 fun id listed => ?_
  obtain ⟨x, held, -⟩ := (settled.mirrored id).1 listed
  rw [Core.secrets_eq_nil none] at held
  exact absurd held List.not_mem_nil

/-- The act comes while a keyring runs, and takes no pair away. -/
def Act.Ordinary : Act → Prop
  | .enroll .. | .rotate | .check | .issue _ | .recognize _ | .react (.transportUp ..) => True
  | _ => False

section Effects

variable (settled : Settled suite origin allowed s.core) (follows : act.Follows origin allowed)
  (fits : Fits origin s.core.tolerance allowed now) (effect : Effect suite now s act report c)
include settled

/-- A window that moves is stored and listed as one. -/
theorem Settled.listsRows_recognized (lists : s.core.ListsRows suite) {bytes : Bytes} {id : PeriodId}
    {ticket : Ticket} {window : SeenWindow} {directory : Directory}
    (recognizes : Registry.Recognizes suite bytes s.core.directory id ticket window directory)
    (whole : directory.Whole) (other : PeriodId) :
    directory.listings[other]? =
      ((Vault.withWindow id window s.core.vault.rows)[other]?).map (Listing.ofSecret suite) := by
  obtain ⟨listing, entered, tag, there, -, marks, -, rfl⟩ := recognizes.listed
  have stored := lists id
  rw [there] at stored
  obtain ⟨row, kept, rfl⟩ := Option.map_eq_some_iff.1 stored.symm
  rw [Registry.getElem?_listings_advance, Vault.withWindow, kept, Option.elim_some,
    ExtTreeMap.getElem?_insert]
  simp only [LawfulEqCmp.compare_eq_iff_eq]
  split
  · obtain rfl := (settled.sound.rows id row kept).1
    have before := settled.exact.proper row.id _ there
    have after := before.mark marks (settled.whole.listing there)
      (whole.listing (by rw [Registry.getElem?_listings_advance, if_pos rfl]))
    rw [Option.map_some]
    exact congrArg some (after.eq (Listing.proper_ofSecret { row with incoming := window }) rfl rfl rfl)
  · exact lists other

include follows fits effect

/-- With an ordinary act, the vault and the directory change in step. -/
theorem Settled.listsRows_effect (lists : s.core.ListsRows suite) (ordinary : act.Ordinary)
    (whole : c.directory.Whole) : c.ListsRows suite := by
  cases effect with
  | kept => exact lists
  | enrolling _ _ unreliable => exact absurd settled.reliable unreliable
  | enrolled at_now reached offered =>
    obtain ⟨rfl, -⟩ := offered.of_willing settled.unopposed.willing
    exact lists.enrolled settled.sound follows (Schedule.pos_of_periodAt at_now) reached
  | rotating _ _ unreliable => exact absurd settled.reliable unreliable
  | rotated quiet plans offered =>
    obtain rfl := settled.unopposed.taken_eq offered
    exact lists.rotated settled.sound fits settled.mirrored plans
  | transportUp => exact lists
  | @issued pair current row held kept =>
    -- A listing does not tell how many streams were opened.
    intro id
    rw [lists, ExtTreeMap.getElem?_insert]
    split
    · rename_i same
      rw [← LawfulEqCmp.compare_eq_iff_eq.1 same, kept]
      rfl
    · rfl
  | recognized recognizes => exact settled.listsRows_recognized lists recognizes whole
  | starting | startRefused | started | stopped | contactGone | transportGone | replaced | restarted =>
    exact ordinary.elim

/-- Every act leaves the directory exact if the awaited streams are told apart afterwards. What an
enrollment lists again has been listed as it is stored, and a start finds nothing listed. -/
theorem Settled.exact_effect (bound : act.Bound origin)
    (enrolls : ∀ link latency handshake, act = .enroll link latency handshake → s.core.ListsRows suite)
    (starts : act = .start → report = .done → s.core.held = ∅) (whole : c.directory.Whole)
    (apart : TellApart (c.directory.Awaits suite)) : c.directory.Exact suite := by
  have after := settled.sound.effect follows fits effect
  cases effect with
  | kept | enrolling | starting | transportUp | issued => exact settled.exact
  | startRefused | stopped | restarted => exact Directory.exact_empty
  | rotating => exact settled.exact.removeAll _
  | contactGone => exact settled.exact.removeAll _
  | transportGone => exact settled.exact.removeAll _
  | replaced => exact bound.elim
  | recognized recognizes => exact settled.exact.recognizes recognizes settled.whole whole apart
  | enrolled at_now reached offered =>
    obtain ⟨rfl, -⟩ := offered.of_willing settled.unopposed.willing
    have pos := Schedule.pos_of_periodAt at_now
    have lists := enrolls _ _ _ rfl
    refine (settled.exact.removeAll _).addAll (fun x mem y mem' =>
      after.distinct_held x (mem_enrolled mem) y (mem_enrolled mem')) (fun id l there => ?_) apart
    rw [Directory.getElem?_listings_removeAll] at there
    obtain ⟨stays, there⟩ := Option.ite_none_left_eq_some.1 there
    rw [lists] at there
    obtain ⟨row, kept, rfl⟩ := Option.map_eq_some_iff.1 there
    refine (lists.enrolled settled.sound follows pos reached id).trans ?_
    rw [getElem?_enrolled settled.sound follows pos reached, if_neg stays, kept, Option.some_or,
      Option.map_some]
  | started plans =>
    refine settled.exact.addAll after.distinct_held (fun id l there => ?_) apart
    simp [settled.listings_eq_empty (starts rfl rfl)] at there
  | rotated quiet plans offered =>
    obtain rfl := settled.unopposed.taken_eq offered
    have chained := chained_created (settled.sound.planned_held fits plans)
    refine (settled.exact.removeAll _).addAll (fun x mem y mem' same => ?_) (fun id l there => ?_) apart
    · obtain ⟨pair, period⟩ := PeriodId.mk.inj same
      rw [chained x mem, chained y mem', show x.pair = y.pair from pair, period]
    · rw [Directory.getElem?_listings_addAll_of_forall_ne, there]
      rintro x mem rfl
      rw [Directory.getElem?_listings_removeAll,
        unlisted_of_created settled.sound fits settled.mirrored plans mem] at there
      simp at there

end Effects

/-- Every act leaves a station settled. -/
theorem Settled.effect (settled : Settled suite origin allowed s.core)
    (follows : act.Follows origin allowed) (bound : act.Bound origin)
    (fits : Fits origin s.core.tolerance allowed now) (effect : Effect suite now s act report c)
    (enrolls : ∀ link latency handshake, act = .enroll link latency handshake → s.core.ListsRows suite)
    (starts : act = .start → report = .done → s.core.held = ∅) (whole : c.directory.Whole)
    (apart : TellApart (c.directory.Awaits suite)) : Settled suite origin allowed c where
  sound := settled.sound.effect follows fits effect
  reliable := effect.reliable settled.reliable
  unopposed := settled.unopposed.effect effect
  mirrored := by
    refine (settled.sound.tied.mirrored_effect bound settled.reliable settled.unopposed
      settled.mirrored effect).2 fun start done x held => ?_
    rw [Core.secrets_eq_nil (starts start done)] at held
    exact absurd held List.not_mem_nil
  exact := settled.exact_effect follows fits effect bound enrolls starts whole apart
  whole := whole

/-! ## Running and idle keyrings -/

/-- Links are enrolled with a keyring that runs, and another keyring takes the place of one that does
not. -/
def Act.Befits : Act → Bool → Prop
  | .enroll .., on => on = true
  | .replace _, on => on = false
  | _, _ => True

instance (act : Act) (on : Bool) : Decidable (act.Befits on) :=
  match act with
  | .enroll .. | .replace _ => inferInstanceAs (Decidable (_ = _))
  | .start | .stop | .rotate | .check | .react _ | .issue _ | .recognize _ | .restart =>
    inferInstanceAs (Decidable True)

/-- A keyring that does not run holds nothing until it is started. -/
theorem Effect.held_eq_empty (effect : Effect suite now s act report c) (none : s.core.held = ∅)
    (befits : act.Befits false) (unstarted : act = .start → report ≠ .done) : c.held = ∅ := by
  cases effect with
  | enrolled => cases befits
  | started => exact absurd rfl (unstarted rfl)
  | rotated quiet plans =>
    rw [show s.keyring.secrets = [] from Core.secrets_eq_nil none, Rollover.plan_nil] at plans
    cases plans
    rfl
  | contactGone | transportGone =>
    dsimp only
    rw [none]
    rfl
  | stopped | replaced | restarted => rfl
  | _ => exact none

/-- The station is settled. If the keyring runs, it lists what is stored, and if not, it holds
nothing. -/
structure InStep (suite : Suite) (origin : Pair → Origin) (allowed : Transport → Nat → Prop)
    (s : Station) : Prop where
  settled : Settled suite origin allowed s.core
  running : s.keyring.running = true → s.core.ListsRows suite
  idle : s.keyring.running = false → s.core.held = ∅

/-- A keyring that was never started, at a smooth post that stores and lists nothing, is in step. -/
theorem inStep_stopped {settings : Settings} {serial : Nat} {post : Post}
    (blank : post.vault.vault.rows = ∅) (unlisted : post.directory = .empty)
    (smooth : (core ⟨.stopped settings serial, post⟩).Smooth)
    (recorded : ∀ (transport : Transport) (latency : Nat),
      post.vault.vault.latencies[transport]? = some latency → allowed transport latency) :
    InStep suite origin allowed ⟨.stopped settings serial, post⟩ where
  settled :=
    { sound := sound_stopped blank recorded
      reliable := smooth.reliable
      unopposed := ⟨smooth.willing, rfl⟩
      mirrored := mirrored_of_empty rfl (congrArg Directory.listings unlisted)
      exact := by
        change post.directory.Exact suite
        exact unlisted ▸ Directory.exact_empty
      whole := by
        change post.directory.Whole
        exact unlisted ▸ Directory.whole_empty }
  running on := nomatch on
  idle _ := rfl

/-- A start that is done has found the keyring idle, and one that is not leaves it as it was. -/
theorem started_cases (suite : Suite) (s : Station) :
    (Act.start.perform suite s).1 = .done ∧ s.keyring.running = false ∧
        (Act.start.perform suite s).2.keyring.running = true ∨
      (Act.start.perform suite s).1 = .nothing ∧
        (Act.start.perform suite s).2.keyring.running = s.keyring.running := by
  simp only [Act.perform, settle]
  rcases duty_start_cases (ends_toExcept (start suite) s) with ⟨same, fault, fails⟩ | ⟨idle, on, ok⟩
  · exact .inr ⟨by rw [fails], congrArg Duty.running same⟩
  · exact .inl ⟨by rw [ok], idle, congrArg Duty.running on⟩

theorem Act.Follows.bound (follows : act.Follows origin allowed)
    (stays : ¬ ∃ serial, act = .replace serial) : act.Bound origin := by
  cases act with
  | enroll => exact follows.1
  | replace => exact stays ⟨_, rfl⟩
  | _ => trivial

namespace InStep

variable (inStep : InStep suite origin allowed s)
include inStep

/-- A removal takes the same from the vault and from the directory. -/
theorem listsRows_removed {notice : Notice} {kind : VaultCall} (calls : notice.call? = some kind)
    (lists : s.core.ListsRows suite) : (s.react notice).core.ListsRows suite := by
  intro id
  have removed : Removed notice s.core (s.react notice).core :=
    removed_of_accepts calls (GuardedVault.Reliable.accepts inStep.settled.reliable kind)
  rw [removed.listings, removed.rows]
  split
  · rfl
  · exact lists id

/-- The keyring that takes the place of one that does not run holds nothing either. -/
theorem replaced (idle : s.keyring.running = false) (serial : Nat) :
    InStep suite origin allowed ((Act.replace serial).perform suite s).2 := by
  have settled := inStep.settled
  have none := inStep.idle idle
  refine ⟨?_, fun on => (nomatch on), fun _ => rfl⟩
  exact
    { sound := settled.sound.emptied rfl rfl rfl
      reliable := settled.reliable
      unopposed := ⟨settled.unopposed.willing, rfl⟩
      mirrored := mirrored_of_empty rfl (settled.listings_eq_empty none)
      exact := settled.exact
      whole := settled.whole }

/-- A start lists what it leaves stored, or it changes nothing. -/
theorem started (fits : Fits origin s.core.tolerance allowed s.post.agenda.now)
    (settled : Settled suite origin allowed (Act.start.perform suite s).2.core) :
    InStep suite origin allowed (Act.start.perform suite s).2 := by
  have effect : Effect suite s.post.agenda.now s .start _ _ := effect_act .start s
  rcases started_cases suite s with ⟨done, idle, on⟩ | ⟨fails, same⟩
  · refine ⟨settled, fun _ => ?_, fun off => nomatch on.symm.trans off⟩
    have none := inStep.settled.listings_eq_empty (inStep.idle idle)
    rw [done] at effect
    generalize (Act.start.perform suite s).2.core = c at effect
    cases effect with
    | started plans => exact listsRows_started inStep.settled.sound fits none plans
    | rotated _ _ _ rolls => simp at rolls
  · have kept : (Act.start.perform suite s).2.core = s.core := by
      rw [fails] at effect
      generalize (Act.start.perform suite s).2.core = c at effect ⊢
      cases effect with
      | kept => rfl
      | starting _ unreliable => exact absurd inStep.settled.reliable unreliable
      | startRefused _ unwilling => exact absurd inStep.settled.unopposed.willing unwilling
      | rotating _ _ _ rolls | rotated _ _ _ rolls => simp at rolls
    exact ⟨settled, fun on => kept ▸ inStep.running (same ▸ on),
      fun off => kept ▸ inStep.idle (same ▸ off)⟩

theorem stopped (settled : Settled suite origin allowed s.stop.core) :
    InStep suite origin allowed s.stop := by
  unfold stop at settled ⊢
  split
  · rename_i on
    rw [if_pos on] at settled
    exact ⟨settled, fun on => (nomatch on), fun _ => rfl⟩
  · exact inStep

/-- Every act leaves a station in step, if the awaited streams are told apart afterwards. -/
theorem perform (follows : act.Follows origin allowed)
    (fits : Fits origin s.core.tolerance allowed s.post.agenda.now)
    (befits : act.Befits s.keyring.running)
    (whole : (act.perform suite s).2.core.directory.Whole)
    (apart : TellApart ((act.perform suite s).2.core.directory.Awaits suite)) :
    InStep suite origin allowed (act.perform suite s).2 := by
  by_cases replaces : ∃ serial, act = .replace serial
  · obtain ⟨serial, rfl⟩ := replaces
    exact inStep.replaced befits serial
  have effect : Effect suite s.post.agenda.now s act _ _ := effect_act act s
  have starts (start : act = .start) (done : (act.perform suite s).1 = .done) : s.core.held = ∅ := by
    subst start
    rcases started_cases suite s with ⟨-, idle, -⟩ | ⟨fails, -⟩
    · exact inStep.idle idle
    · cases done.symm.trans fails
  have enrolls (link : Link) (latency : Nat) (handshake : Key)
      (enroll : act = .enroll link latency handshake) : s.core.ListsRows suite := by
    subst enroll
    exact inStep.running befits
  have settled := inStep.settled.effect follows (follows.bound replaces) fits effect enrolls starts whole
    apart
  -- Most acts leave a running keyring running, and another one without secrets.
  have keeps (same : (act.perform suite s).2.duty = s.duty)
      (lists : s.core.ListsRows suite → (act.perform suite s).2.core.ListsRows suite)
      (unstarted : act = .start → (act.perform suite s).1 ≠ .done) :
      InStep suite origin allowed (act.perform suite s).2 := by
    have running : (act.perform suite s).2.keyring.running = s.keyring.running :=
      congrArg Duty.running same
    refine ⟨settled, fun on => lists (inStep.running (running ▸ on)), fun off => ?_⟩
    have idle : s.keyring.running = false := running ▸ off
    exact effect.held_eq_empty (inStep.idle idle) (idle ▸ befits) unstarted
  have ordinary (plain : act.Ordinary) (lists : s.core.ListsRows suite) :
      (act.perform suite s).2.core.ListsRows suite :=
    inStep.settled.listsRows_effect follows fits effect lists plain whole
  have duty := duty_perform suite act s
  cases act with
  | enroll | rotate | check | issue | recognize => exact keeps duty (ordinary trivial) (fun h => nomatch h)
  | react notice =>
    refine keeps duty (fun lists => ?_) (fun h => nomatch h)
    cases notice with
    | transportUp => exact ordinary trivial lists
    | contactGone | transportGone => exact inStep.listsRows_removed rfl lists
  | start => exact inStep.started fits settled
  | stop => exact inStep.stopped settled
  | replace => exact absurd ⟨_, rfl⟩ replaces
  | restart => exact ⟨settled, fun on => (nomatch on), fun _ => rfl⟩

end InStep

end SealedStream.Station
