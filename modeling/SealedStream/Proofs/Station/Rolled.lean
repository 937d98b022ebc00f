import SealedStream.Proofs.Rollover.Periods
import SealedStream.Proofs.Station.Sound

/-!
# Rollovers of stored and of held secrets

A keyring that starts plans a rollover of the stored secrets, one that rotates a rollover of the held
ones. In a sound station both are told by the periods of the pairs.

## Main statements

* `Station.hasPeriod_values`, `Station.hasPeriod_held` — the periods that are stored or held.
* `Station.mem_stored`, `Station.mem_persisted` — the periods that are stored after a rollover.
-/

namespace SealedStream.Station

open Std

variable {suite : Suite} {origin : Pair → Origin} {now : Nat}

theorem hasPeriod_values {rows : ExtTreeMap PeriodId PeriodSecret}
    (genuine : Vault.GenuineRows suite origin rows) {pair : Pair} {period : Nat} :
    Rollover.HasPeriod rows.values pair period ↔ (⟨pair, period⟩ : PeriodId) ∈ rows := by
  constructor
  · rintro ⟨s, mem, named⟩
    obtain ⟨id, there⟩ := mem_values.1 mem
    rw [← named, (genuine id s there).1]
    simp [ExtTreeMap.mem_iff_isSome_getElem?, there]
  · intro mem
    have there := ExtTreeMap.getElem?_eq_some_getElem mem
    exact ⟨_, mem_values.2 ⟨_, there⟩, (genuine _ _ there).1⟩

theorem hasPeriod_held {held : ExtTreeMap Pair Trio}
    (aligned : ∀ (pair : Pair) (trio : Trio), held[pair]? = some trio →
      Aligned suite origin pair trio) {pair : Pair} {period : Nat} :
    Rollover.HasPeriod (held.values.flatMap Trio.secrets) pair period ↔
      ∃ trio : Trio, held[pair]? = some trio ∧ some period ∈ trio.periods := by
  simp only [Trio.periods, List.mem_map, Option.map_eq_some_iff]
  constructor
  · rintro ⟨s, mem, named⟩
    obtain ⟨pair', trio, turn, there, stands⟩ := mem_heldSecrets.1 mem
    obtain ⟨first, row⟩ := aligned pair' trio there
    obtain ⟨own, rfl⟩ := PeriodId.mk.inj named
    obtain rfl : pair' = pair := (row turn s stands).1.symm.trans own
    exact ⟨trio, there, turn, by cases turn <;> decide, s, stands, rfl⟩
  · rintro ⟨trio, there, turn, -, s, stands, rfl⟩
    obtain ⟨first, row⟩ := aligned pair trio there
    refine ⟨s, mem_heldSecrets.2 ⟨pair, trio, turn, there, stands⟩, ?_⟩
    rw [PeriodSecret.id, ← (row turn s stands).1]
    rfl

section Rollovers

variable {latencies : ExtTreeMap Transport Nat} {tolerance : Nat} {secrets : List PeriodSecret}
  {r : Rollover} (planned : Rollover.Planned suite origin now latencies tolerance secrets r)
  {rows : ExtTreeMap PeriodId PeriodSecret} (genuine : Vault.GenuineRows suite origin rows)
  {pair : Pair} {period : Nat}
include planned genuine

theorem mem_stored : (⟨pair, period⟩ : PeriodId) ∈ stored r rows ↔
    ⟨pair, period⟩ ∈ rows ∨ Rollover.HasPeriod r.created pair period :=
  Vault.mem_putAll genuine (chained_created planned)

theorem mem_persisted : (⟨pair, period⟩ : PeriodId) ∈ persisted r rows ↔
    (⟨pair, period⟩ ∈ rows ∨ Rollover.HasPeriod r.created pair period) ∧
      (⟨pair, period⟩ : PeriodId) ∉ r.retired := by
  rw [← mem_stored planned genuine]
  exact Vault.mem_eraseAll

theorem getElem?_persisted {id : PeriodId} : (persisted r rows)[id]? =
    if id ∈ r.retired then none else (rows[id]?).or
      (if ∃ s ∈ r.created, s.id = id then some (.ofChain suite origin id.toPair id.period)
        else none) := by
  rw [persisted, Vault.getElem?_eraseAll, stored,
    Vault.getElem?_putAll genuine (chained_created planned)]

/-- What is derived anew is stored as it is. -/
theorem getElem?_persisted_of_created {x : PeriodSecret} (mem : x ∈ r.created)
    (absent : rows[x.id]? = none) : (persisted r rows)[x.id]? = some x := by
  have stays : x.id ∉ r.retired := by
    intro retired
    obtain ⟨s, given, same⟩ : Rollover.HasPeriod secrets x.pair x.period :=
      planned.hasPeriod_of_retired retired
    exact ((planned.mem_created x).1 mem).2.2.2 s given same
  rw [getElem?_persisted planned genuine, if_neg stays, absent, Option.none_or, if_pos ⟨x, mem, rfl⟩]
  exact congrArg some (chained_created planned x mem).symm

/-- A rollover leaves the periods of a pair alone of which it was given no secret. -/
theorem mem_persisted_of_none (none : ∀ p, ¬ Rollover.HasPeriod secrets pair p) :
    (⟨pair, period⟩ : PeriodId) ∈ persisted r rows ↔ ⟨pair, period⟩ ∈ rows := by
  rw [mem_persisted planned genuine]
  constructor
  · rintro ⟨mem | created, -⟩
    · exact mem
    · obtain ⟨earlier, -, source⟩ := planned.hasPeriod_of_created created
      exact absurd source (none earlier)
  · exact fun mem => ⟨.inl mem, fun retired => none _ (planned.hasPeriod_of_retired retired)⟩

theorem mem_persisted_iff {latency current : Nat}
    (known : latencies[pair.transport]? = some latency)
    (pos : 0 < Schedule.interval latency tolerance) (room : current < Count.top)
    (at_now : Schedule.periodAt (origin pair).epoch (Schedule.interval latency tolerance) now =
      some current) :
    (⟨pair, period⟩ : PeriodId) ∈ persisted r rows ↔
      (⟨pair, period⟩ ∈ rows ∨ Rollover.Derives (Rollover.HasPeriod secrets pair) current period) ∧
        ¬ (Rollover.HasPeriod secrets pair period ∧ period + 2 ≤ current) := by
  rw [mem_persisted planned genuine, planned.created_iff known room at_now,
    planned.retired_iff known at_now pos]

end Rollovers

/-! ## Enrolling -/

theorem mem_staleIds {k : Keyring} {pair : Pair} {secrets : List PeriodSecret} {id : PeriodId} :
    id ∈ staleIds k pair secrets ↔
      (∃ trio : Trio, k.held[pair]? = some trio ∧ ∃ turn s, trio.get turn = some s ∧ s.id = id) ∧
        ∀ s ∈ secrets, s.id ≠ id := by
  unfold staleIds
  cases held : k.held[pair]? with
  | none => simp
  | some trio =>
    simp only [List.mem_filter, List.mem_map, Trio.mem_secrets, List.contains_eq_mem,
      Bool.not_eq_true', decide_eq_false_iff_not, not_exists, not_and]
    constructor
    · rintro ⟨⟨s, ⟨turn, stands⟩, named⟩, fresh⟩
      exact ⟨⟨trio, rfl, turn, s, stands, named⟩, fresh⟩
    · rintro ⟨⟨_, ⟨⟩, turn, s, stands, named⟩, fresh⟩
      exact ⟨⟨s, ⟨turn, stands⟩, named⟩, fresh⟩

theorem exists_mem_around {pair : Pair} {current : Nat} (pos : 0 < current) {id : PeriodId} :
    (∃ s ∈ around suite origin pair current, s.id = id) ↔
      id.toPair = pair ∧ Rollover.Near current id.period := by
  obtain ⟨pair', period⟩ := id
  simp only [around, List.mem_cons, List.not_mem_nil, or_false, exists_eq_or_imp, exists_eq_left,
    PeriodSecret.id_ofChain, PeriodId.mk.injEq, Rollover.Near]
  constructor
  · rintro (⟨rfl, rfl⟩ | ⟨rfl, rfl⟩ | ⟨rfl, rfl⟩)
    · exact ⟨rfl, .inl (by omega)⟩
    · exact ⟨rfl, .inr (.inl rfl)⟩
    · exact ⟨rfl, .inr (.inr rfl)⟩
  · rintro ⟨rfl, near | near | near⟩
    · exact .inl ⟨rfl, by omega⟩
    · exact .inr (.inl ⟨rfl, near.symm⟩)
    · exact .inr (.inr ⟨rfl, near.symm⟩)

section Enroll

variable {allowed : Transport → Nat → Prop} {s : Station} {link : Link} {latency current : Nat}
  {handshake : Key} (sound : Sound suite origin allowed s.core)
  (follows : (Act.enroll link latency handshake).Follows origin allowed) (pos : 0 < current)
include sound follows pos

/-- What enrolling removes is held for the pair and not live. -/
theorem mem_staleIds_derived {id : PeriodId}
    (mem : id ∈ staleIds s.keyring link.toPair (liveSecrets suite link current handshake)) :
    id.toPair = link.toPair ∧ ¬ Rollover.Near current id.period ∧
      ∃ trio : Trio, s.core.held[link.toPair]? = some trio ∧ some id.period ∈ trio.periods := by
  obtain ⟨⟨trio, there, turn, x, stands, rfl⟩, fresh⟩ := mem_staleIds.1 mem
  obtain ⟨first, row⟩ := sound.held link.toPair trio there
  have own : x.id.toPair = link.toPair := (row turn x stands).1
  rw [liveSecrets_of_follows follows pos] at fresh
  refine ⟨own, ?_, trio, there, ?_⟩
  · intro near
    obtain ⟨y, mem, named⟩ : ∃ y ∈ around suite origin link.toPair current, y.id = x.id :=
      (exists_mem_around pos).2 ⟨own, near⟩
    exact fresh y mem named
  · simp only [Trio.periods, List.mem_map, Option.map_eq_some_iff]
    exact ⟨turn, by cases turn <;> decide, x, stands, rfl⟩

variable {rows : ExtTreeMap PeriodId PeriodSecret}
  (reached :
    let derived := liveSecrets suite link current handshake
    let added := derived.foldl Vault.put s.core.vault.rows
    rows = added ∨ rows = (staleIds s.keyring link.toPair derived).foldl (·.erase ·) added)
include reached

theorem mem_enrolled_of_near {period : Nat} (near : Rollover.Near current period) :
    (⟨link.toPair, period⟩ : PeriodId) ∈ rows := by
  have added : (⟨link.toPair, period⟩ : PeriodId) ∈
      (liveSecrets suite link current handshake).foldl Vault.put s.core.vault.rows := by
    rw [liveSecrets_of_follows follows pos, Vault.mem_putAll sound.rows (chained_around _ _),
      exists_mem_around pos]
    exact .inr ⟨rfl, near⟩
  rcases reached with rfl | rfl
  · exact added
  · exact Vault.mem_eraseAll.2
      ⟨added, fun stale => (mem_staleIds_derived sound follows pos stale).2.1 near⟩

theorem mem_enrolled_of_ne {id : PeriodId} (other : id.toPair ≠ link.toPair) :
    id ∈ rows ↔ id ∈ s.core.vault.rows := by
  have added : id ∈ (liveSecrets suite link current handshake).foldl Vault.put s.core.vault.rows ↔
      id ∈ s.core.vault.rows := by
    rw [liveSecrets_of_follows follows pos, Vault.mem_putAll sound.rows (chained_around _ _),
      exists_mem_around pos]
    exact or_iff_left fun own => other own.1
  rcases reached with rfl | rfl
  · exact added
  · rw [Vault.mem_eraseAll, added]
    exact and_iff_left fun stale => other (mem_staleIds_derived sound follows pos stale).1

end Enroll

end SealedStream.Station
