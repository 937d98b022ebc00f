import SealedStream.Proofs.Bare
import SealedStream.Proofs.Station.Rolled

/-!
# Three live periods at all times

The held secrets of a pair are those of three consecutive periods. A rollover can complete them from
the first one on. For a keyring that starts over, the vault has to be able to do the same: it never
holds secrets of a pair that lie all close together, and either an earlier one than the held ones or
three in a row that are not earlier.

## Main definitions

* `Spread`, `Supports` — what is asked of the stored periods of a pair.
* `Station.Backed` — the held secrets are complete, and the stored ones support them.

## Main statements

* `Station.Backed.effect` — whatever an act does, the held secrets stay backed.
* `Station.live_triples` — a keyring that has started or rotated holds the three live secrets.
-/

namespace SealedStream

open Std

/-! ## Stored periods -/

/-- If there is a period, there are two that are not neighbours. -/
def Spread (stored : Nat → Prop) : Prop :=
  (∃ p, stored p) → ∃ a b, stored a ∧ stored b ∧ a + 2 ≤ b

/-- The three periods from `first` on are there. -/
def Row (stored : Nat → Prop) (first : Nat) : Prop :=
  stored first ∧ stored (first + 1) ∧ stored (first + 2)

/-- There is a period before `first`, or three in a row are not before it. -/
def Supports (stored : Nat → Prop) (first : Nat) : Prop :=
  (∃ p < first, stored p) ∨ ∃ p, first ≤ p ∧ Row stored p

section Periods

variable {stored stored' : Nat → Prop} {first : Nat}

theorem Supports.mono (h : Supports stored first) (le : ∀ p, stored p → stored' p) :
    Supports stored' first := by
  rcases h with ⟨p, lt, mem⟩ | ⟨p, ge, mem₀, mem₁, mem₂⟩
  · exact .inl ⟨p, lt, le p mem⟩
  · exact .inr ⟨p, ge, le _ mem₀, le _ mem₁, le _ mem₂⟩

theorem Supports.nonempty (h : Supports stored first) : ∃ p, stored p := by
  rcases h with ⟨p, -, mem⟩ | ⟨p, -, mem, -⟩
  · exact ⟨p, mem⟩
  · exact ⟨p, mem⟩

theorem Spread.mono (h : Spread stored) (le : ∀ p, stored p → stored' p)
    (source : (∃ p, stored' p) → ∃ p, stored p) : Spread stored' := by
  intro any
  obtain ⟨a, b, mem_a, mem_b, far⟩ := h (source any)
  exact ⟨a, b, le a mem_a, le b mem_b, far⟩

theorem Spread.congr (h : Spread stored) (same : ∀ p, stored' p ↔ stored p) : Spread stored' :=
  h.mono (fun p => (same p).2) (.imp fun p => (same p).1)

theorem Row.spread (row : Row stored first) : Spread stored :=
  fun _ => ⟨first, first + 2, row.1, row.2.2, le_rfl⟩

/-- Three periods in a row support any period: the first of them is before it or not. -/
theorem Row.supports (row : Row stored first) (p : Nat) : Supports stored p := by
  rcases Nat.lt_or_ge first p with lt | ge
  · exact .inl ⟨first, lt, row.1⟩
  · exact .inr ⟨first, ge, row⟩

end Periods

/-! ## Stored periods in a rollover -/

section Rolled

variable {stored stored' input : Nat → Prop} {current : Nat}
  (rolled : ∀ p, stored' p ↔ (stored p ∨ Rollover.Derives input current p) ∧
    ¬ (input p ∧ p + 2 ≤ current))
include rolled

/-- A rollover of all stored secrets stores the three live ones. -/
theorem row_of_rolled (same : ∀ p, input p ↔ stored p) {source : Nat} (lt : source < current)
    (mem : stored source) : Row stored' (current - 1) := by
  have near (p : Nat) (ge : current - 1 ≤ p) (le : p ≤ current + 1) : stored' p := by
    refine (rolled p).2 ⟨?_, by omega⟩
    by_cases there : stored p
    · exact .inl there
    · have ne : source ≠ p := fun eq => there (eq ▸ mem)
      exact .inr ⟨by unfold Rollover.Near; omega, fun h => there ((same p).1 h), source, by omega,
        (same _).2 mem⟩
  exact ⟨near _ (by omega) (by omega), near _ (by omega) (by omega), near _ (by omega) (by omega)⟩

/-- A rollover of three consecutive secrets that are supported leaves the three live ones supported.
Stored periods that are not held stay, and those derived lie after all held ones. -/
theorem supports_of_rolled {first : Nat}
    (row : ∀ p, input p ↔ p = first ∨ p = first + 1 ∨ p = first + 2) (lt : first < current)
    (supports : Supports stored first) (spread : Spread stored) :
    Supports stored' (current - 1) ∧ Spread stored' := by
  have kept (p : Nat) (mem : stored p) (live : current ≤ p + 1 ∨ p < first ∨ first + 2 < p) :
      stored' p := (rolled p).2 ⟨.inl mem, fun ⟨h, _⟩ => by rw [row] at h; omega⟩
  have derived (p : Nat) (near : Rollover.Near current p) (late : first + 2 < p) :
      stored' p :=
    (rolled p).2 ⟨.inr ⟨near, by rw [row]; omega, first, by omega, (row _).2 (.inl rfl)⟩,
      by unfold Rollover.Near at near; omega⟩
  by_cases idle : current = first + 1
  · subst idle
    have le (p : Nat) (mem : stored p) : stored' p := kept p mem (by omega)
    exact ⟨supports.mono le, spread.mono le fun _ => supports.nonempty⟩
  have last := derived (current + 1) (.inr (.inr rfl)) (by omega)
  rcases supports with ⟨p, before, mem⟩ | ⟨p, ge, mem₀, mem₁, mem₂⟩
  · have mem' := kept p mem (by omega)
    exact ⟨.inl ⟨p, by omega, mem'⟩, fun _ => ⟨p, current + 1, mem', last, by omega⟩⟩
  · by_cases late : current ≤ p + 1
    · have row' : Row stored' p :=
        ⟨kept p mem₀ (by omega), kept _ mem₁ (by omega), kept _ mem₂ (by omega)⟩
      exact ⟨row'.supports _, row'.spread⟩
    -- What is live and held is one of the last two of the three; the rest is derived.
    have near (x : Nat) (ge : current - 1 ≤ x) (le : x ≤ current + 1) : stored' x := by
      by_cases held : x ≤ first + 2
      · have mem : stored x := by
          obtain rfl | rfl : x = p + 1 ∨ x = p + 2 := by omega
          · exact mem₁
          · exact mem₂
        exact kept x mem (by omega)
      · exact derived x (by unfold Rollover.Near; omega) (by omega)
    have row' : Row stored' (current - 1) :=
      ⟨near _ (by omega) (by omega), near _ (by omega) (by omega), near _ (by omega) (by omega)⟩
    exact ⟨row'.supports _, row'.spread⟩

end Rolled

namespace Station

variable {suite : Suite} {origin : Pair → Origin} {allowed : Transport → Nat → Prop} {now : Nat}

/-! ## Room for the next period -/

/-- With the allowed latencies, the current period of every pair and the next one are counts. -/
def Roomy (origin : Pair → Origin) (tolerance : Nat) (allowed : Transport → Nat → Prop)
    (now : Nat) : Prop :=
  ∀ (pair : Pair) (latency current : Nat), allowed pair.transport latency →
    Schedule.periodAt (origin pair).epoch (Schedule.interval latency tolerance) now =
      some current → current < Count.top

/-- However short the periods are, the next one is a count as long as the clock reads less. -/
theorem roomy_of_lt {tolerance : Nat} (lt : now + 1 < Count.top) :
    Roomy origin tolerance allowed now := by
  intro pair latency current _ at_now
  obtain ⟨-, rfl⟩ := Schedule.of_periodAt at_now
  have le := Nat.div_le_self (now - (origin pair).epoch) (Schedule.interval latency tolerance)
  omega

/-- Periods have a length, and at `now` there is room for the next one. -/
structure Ample (origin : Pair → Origin) (tolerance : Nat) (allowed : Transport → Nat → Prop)
    (now : Nat) : Prop where
  pos : ∀ transport latency, allowed transport latency → 0 < Schedule.interval latency tolerance
  roomy : Roomy origin tolerance allowed now

theorem Ample.fits {tolerance : Nat} (ample : Ample origin tolerance allowed now) :
    Fits origin tolerance allowed now where
  pos := ample.pos
  counted pair latency current allow at_now := (ample.roomy pair latency current allow at_now).le

/-! ## The invariant -/

/-- The secret of a period of a pair is stored. -/
def Core.Stores (c : Core) (pair : Pair) (period : Nat) : Prop :=
  (⟨pair, period⟩ : PeriodId) ∈ c.vault.rows

/-- The held secrets of every pair are those of three consecutive periods, and what is stored can
take their place wherever the vault has a latency. -/
structure Backed (c : Core) : Prop where
  held : ∀ (pair : Pair) (trio : Trio), c.held[pair]? = some trio →
    ∃ current, 0 < current ∧ trio.periods = [some (current - 1), some current, some (current + 1)] ∧
      (pair.transport ∈ c.vault.latencies → Supports (c.Stores pair) (current - 1))
  spread : ∀ pair : Pair, pair.transport ∈ c.vault.latencies → Spread (c.Stores pair)

section Rollovers

variable {c : Core} (backed : Backed c) (sound : Sound suite origin allowed c)
  (ample : Ample origin c.tolerance allowed now) {r : Rollover} {pair : Pair}
include backed sound ample

/-- A start finds a secret before the current period for every pair it can serve, and leaves the
three live ones stored. -/
theorem Backed.start_row
    (planned : Rollover.Planned suite origin now c.vault.latencies c.tolerance c.vault.rows.values r)
    (recorded : pair.transport ∈ c.vault.latencies) (any : ∃ p, c.Stores pair p) :
    ∃ latency current, c.vault.latencies[pair.transport]? = some latency ∧
      Schedule.periodAt (origin pair).epoch (Schedule.interval latency c.tolerance) now =
        some current ∧
      (∃ source < current, c.Stores pair source) ∧
      Row (fun p => (⟨pair, p⟩ : PeriodId) ∈ persisted r c.vault.rows) (current - 1) := by
  have known := ExtTreeMap.getElem?_eq_some_getElem recorded
  have allow := sound.recorded _ _ known
  have pos := ample.pos _ _ allow
  obtain ⟨a, b, mem_a, mem_b, far⟩ := backed.spread pair recorded any
  have timely := planned.timely_of_known known b ((hasPeriod_values sound.rows).2 mem_b)
  obtain ⟨current, at_now, cycle⟩ := Schedule.exists_periodAt pos
    (by omega : 0 < Schedule.cycle (origin pair).epoch _ now)
  refine ⟨_, current, known, at_now, ⟨a, by omega, mem_a⟩, ?_⟩
  exact row_of_rolled
    (fun _ => mem_persisted_iff planned sound.rows known pos (ample.roomy _ _ _ allow at_now) at_now)
    (fun _ => hasPeriod_values sound.rows) (by omega : a < current) mem_a

/-- A start holds the three live secrets of every pair. -/
theorem Backed.start_periods
    (planned : Rollover.Planned suite origin now c.vault.latencies c.tolerance c.vault.rows.values r)
    {trio : Trio} (there : r.held[pair]? = some trio) :
    ∃ latency current, c.vault.latencies[pair.transport]? = some latency ∧
      Schedule.periodAt (origin pair).epoch (Schedule.interval latency c.tolerance) now =
        some current ∧
      trio.periods = [some (current - 1), some current, some (current + 1)] ∧
      Row (fun p => (⟨pair, p⟩ : PeriodId) ∈ persisted r c.vault.rows) (current - 1) := by
  obtain ⟨latency, known⟩ := known_held planned there
  obtain ⟨p, mem⟩ := planned.hasPeriod_of_held there
  have recorded : pair.transport ∈ c.vault.latencies := by
    simp [ExtTreeMap.mem_iff_isSome_getElem?, known]
  obtain ⟨latency, current, known, at_now, ⟨source, lt, stored⟩, row⟩ :=
    backed.start_row sound ample planned recorded ⟨p, (hasPeriod_values sound.rows).1 mem⟩
  have allow := sound.recorded _ _ known
  have periods := planned.periods_held known (ample.roomy _ _ _ allow at_now) at_now
    (ample.pos _ _ allow) lt ((hasPeriod_values sound.rows).2 stored)
  rw [there] at periods
  exact ⟨latency, current, known, at_now, Option.some.inj periods, row⟩

/-- A rotation finds the first of three held secrets before the current period. -/
theorem Backed.rotate_row
    (planned : Rollover.Planned suite origin now c.latencies c.tolerance
      (c.held.values.flatMap Trio.secrets) r)
    {trio : Trio} (there : c.held[pair]? = some trio) :
    ∃ first latency current, c.latencies[pair.transport]? = some latency ∧
      Schedule.periodAt (origin pair).epoch (Schedule.interval latency c.tolerance) now =
        some current ∧
      first < current ∧ (∀ p, Rollover.HasPeriod (c.held.values.flatMap Trio.secrets) pair p ↔
        p = first ∨ p = first + 1 ∨ p = first + 2) ∧
      (pair.transport ∈ c.vault.latencies →
        Supports (fun p => (⟨pair, p⟩ : PeriodId) ∈ persisted r c.vault.rows) (current - 1) ∧
          Spread fun p => (⟨pair, p⟩ : PeriodId) ∈ persisted r c.vault.rows) := by
  obtain ⟨before, pos_before, periods, supports⟩ := backed.held pair trio there
  obtain ⟨first, rfl⟩ : ∃ first, before = first + 1 := ⟨before - 1, by omega⟩
  obtain ⟨latency, known⟩ := sound.known pair trio there
  have allow := sound.latencies _ _ known
  have pos := ample.pos _ _ allow
  have row (p : Nat) : Rollover.HasPeriod (c.held.values.flatMap Trio.secrets) pair p ↔
      p = first ∨ p = first + 1 ∨ p = first + 2 := by
    simp [hasPeriod_held sound.held, there, periods]
  have timely := planned.timely_of_known known (first + 2) ((row _).2 (.inr (.inr rfl)))
  obtain ⟨current, at_now, cycle⟩ := Schedule.exists_periodAt pos
    (by omega : 0 < Schedule.cycle (origin pair).epoch _ now)
  refine ⟨first, latency, current, known, at_now, by omega, row, ?_⟩
  intro recorded
  exact supports_of_rolled
    (fun _ => mem_persisted_iff planned sound.rows known pos (ample.roomy _ _ _ allow at_now) at_now)
    row (by omega) (supports recorded) (backed.spread pair recorded)

/-- A rotation holds the three live secrets of every pair. -/
theorem Backed.rotate_periods
    (planned : Rollover.Planned suite origin now c.latencies c.tolerance
      (c.held.values.flatMap Trio.secrets) r)
    {trio : Trio} (there : r.held[pair]? = some trio) :
    ∃ latency current, c.latencies[pair.transport]? = some latency ∧
      Schedule.periodAt (origin pair).epoch (Schedule.interval latency c.tolerance) now =
        some current ∧
      trio.periods = [some (current - 1), some current, some (current + 1)] ∧
      (pair.transport ∈ c.vault.latencies →
        Supports (fun p => (⟨pair, p⟩ : PeriodId) ∈ persisted r c.vault.rows) (current - 1)) := by
  obtain ⟨p, mem⟩ := planned.hasPeriod_of_held there
  obtain ⟨trio', there', -⟩ := (hasPeriod_held sound.held).1 mem
  obtain ⟨first, latency, current, known, at_now, lt, row, supports⟩ :=
    backed.rotate_row sound ample planned there'
  have allow := sound.latencies _ _ known
  have periods := planned.periods_held known (ample.roomy _ _ _ allow at_now) at_now
    (ample.pos _ _ allow) lt ((row first).2 (.inl rfl))
  rw [there] at periods
  exact ⟨latency, current, known, at_now, Option.some.inj periods, fun recorded =>
    (supports recorded).1⟩

end Rollovers

theorem row_enrolled {s : Station} {link : Link} {latency current : Nat} {handshake : Key}
    {rows : ExtTreeMap PeriodId PeriodSecret} (sound : Sound suite origin allowed s.core)
    (follows : (Act.enroll link latency handshake).Follows origin allowed) (pos : 0 < current)
    (reached :
      let derived := liveSecrets suite link current handshake
      let added := derived.foldl Vault.put s.core.vault.rows
      rows = added ∨ rows = (staleIds s.keyring link.toPair derived).foldl (·.erase ·) added) :
    Row (fun p => (⟨link.toPair, p⟩ : PeriodId) ∈ rows) (current - 1) := by
  have live {period : Nat} (near : Rollover.Near current period) :=
    mem_enrolled_of_near sound follows pos reached near
  exact ⟨live (.inl (by omega)), live (.inr (.inl (by omega))), live (.inr (.inr (by omega)))⟩

/-- Storing the three live secrets of a pair does no harm. -/
theorem Backed.enrolling {c : Core} (backed : Backed c) {pair : Pair} {current : Nat}
    {rows : ExtTreeMap PeriodId PeriodSecret}
    (row : Row (fun p => (⟨pair, p⟩ : PeriodId) ∈ rows) (current - 1))
    (others : ∀ id : PeriodId, id.toPair ≠ pair → (id ∈ rows ↔ id ∈ c.vault.rows)) :
    Backed { c with vault.rows := rows } := by
  have same {other : Pair} (ne : other ≠ pair) :
      Core.Stores { c with vault.rows := rows } other = c.Stores other :=
    funext fun p => propext (others ⟨other, p⟩ ne)
  constructor
  · intro other trio there
    obtain ⟨before, pos, periods, supports⟩ := backed.held other trio there
    refine ⟨before, pos, periods, ?_⟩
    intro recorded
    by_cases own : other = pair
    · subst own
      exact row.supports _
    · rw [same own]
      exact supports recorded
  · intro other recorded
    by_cases own : other = pair
    · subst own
      exact row.spread
    · rw [same own]
      exact backed.spread other recorded

/-- The secrets of a rollover can be stored without the retired ones being removed. -/
theorem Backed.storing {c : Core} (backed : Backed c) (sound : Sound suite origin allowed c)
    {latencies : ExtTreeMap Transport Nat} {secrets : List PeriodSecret} {r : Rollover}
    (planned : Rollover.Planned suite origin now latencies c.tolerance secrets r)
    (source : ∀ pair p, pair.transport ∈ c.vault.latencies →
      Rollover.HasPeriod secrets pair p → ∃ p, c.Stores pair p) :
    Backed { c with vault.rows := stored r c.vault.rows } := by
  have kept (pair : Pair) (p : Nat) (mem : c.Stores pair p) :
      (⟨pair, p⟩ : PeriodId) ∈ Station.stored r c.vault.rows :=
    (mem_stored planned sound.rows).2 (.inl mem)
  constructor
  · intro pair trio there
    obtain ⟨before, pos, periods, supports⟩ := backed.held pair trio there
    exact ⟨before, pos, periods, fun recorded => (supports recorded).mono (kept pair)⟩
  · intro pair recorded
    refine (backed.spread pair recorded).mono (kept pair) ?_
    rintro ⟨p, mem⟩
    rcases (mem_stored planned sound.rows).1 mem with mem | created
    · exact ⟨p, mem⟩
    · obtain ⟨earlier, -, mem⟩ := planned.hasPeriod_of_created created
      exact source pair earlier recorded mem

/-- What a rollover of the stored secrets leaves behind can be started from again. -/
theorem Backed.persisting {c : Core} (backed : Backed c) (sound : Sound suite origin allowed c)
    (ample : Ample origin c.tolerance allowed now) {r : Rollover}
    (planned : Rollover.Planned suite origin now c.vault.latencies c.tolerance c.vault.rows.values r)
    {pair : Pair} (recorded : pair.transport ∈ c.vault.latencies) :
    (∃ first, Row (fun p => (⟨pair, p⟩ : PeriodId) ∈ persisted r c.vault.rows) first) ∨
      ∀ p, (⟨pair, p⟩ : PeriodId) ∈ persisted r c.vault.rows ↔ c.Stores pair p := by
  by_cases any : ∃ p, c.Stores pair p
  · obtain ⟨_, current, -, -, -, row⟩ := backed.start_row sound ample planned recorded any
    exact .inl ⟨_, row⟩
  · refine .inr fun p => mem_persisted_of_none planned sound.rows fun p mem => any ⟨p, ?_⟩
    exact (hasPeriod_values sound.rows).1 mem

/-- It does not matter what the rows say, only which there are. -/
theorem Backed.of_rows {c : Core} (backed : Backed c) {rows : ExtTreeMap PeriodId PeriodSecret}
    (same : ∀ id, id ∈ rows ↔ id ∈ c.vault.rows) : Backed { c with vault.rows := rows } := by
  have stores (pair : Pair) : Core.Stores { c with vault.rows := rows } pair = c.Stores pair :=
    funext fun p => propext (same ⟨pair, p⟩)
  exact ⟨by simpa only [stores] using backed.held, by simpa only [stores] using backed.spread⟩

/-- Pairs may be forgotten, whether or not what is stored of them is removed. -/
theorem Backed.forget {c : Core} (backed : Backed c) (gone : Pair → Prop) [DecidablePred gone]
    (vault : Vault) (recorded : ∀ pair : Pair, ¬ gone pair → pair.transport ∈ vault.latencies →
      pair.transport ∈ c.vault.latencies)
    (kept : ∀ id : PeriodId, ¬ gone id.toPair → (id ∈ vault.rows ↔ id ∈ c.vault.rows))
    (removed : ∀ pair, gone pair → pair.transport ∈ vault.latencies →
      Spread fun p => (⟨pair, p⟩ : PeriodId) ∈ vault.rows) :
    Backed { c with vault, held := c.held.filter fun pair _ => ¬ gone pair } := by
  have same {pair : Pair} (stays : ¬ gone pair) :
      Core.Stores { c with vault, held := c.held.filter fun pair _ => ¬ gone pair } pair =
        c.Stores pair :=
    funext fun p => propext (kept ⟨pair, p⟩ stays)
  constructor
  · intro pair trio there
    rw [ExtTreeMap.getElem?_filter', Option.filter_eq_some_iff] at there
    have stays : ¬ gone pair := by simpa using there.2
    obtain ⟨before, pos, periods, supports⟩ := backed.held pair trio there.1
    refine ⟨before, pos, periods, ?_⟩
    intro known
    rw [same stays]
    exact supports (recorded pair stays known)
  · intro pair known
    by_cases goes : gone pair
    · exact removed pair goes known
    · rw [same goes]
      exact backed.spread pair (recorded pair goes known)

theorem mem_filter_ids {rows : ExtTreeMap PeriodId PeriodSecret} {p : PeriodId → Bool}
    {id : PeriodId} :
    id ∈ rows.filter (fun id _ => p id) ↔ id ∈ rows ∧ p id = true := by
  simp only [ExtTreeMap.mem_iff_isSome_getElem?, ExtTreeMap.getElem?_filter']
  cases rows[id]? <;> simp

section Effects

variable {s : Station} {c : Core} {r : Rollover}

/-- An enrolled pair holds the three secrets that are stored. -/
theorem Backed.enrolled {link : Link} {latency current : Nat} {handshake : Key}
    {rows : ExtTreeMap PeriodId PeriodSecret} {directory : Directory} {unlisted : ExtTreeSet PeriodId}
    (backed : Backed s.core) (sound : Sound suite origin allowed s.core)
    (follows : (Act.enroll link latency handshake).Follows origin allowed) (pos : 0 < current)
    (reached :
      let derived := liveSecrets suite link current handshake
      rows = (staleIds s.keyring link.toPair derived).foldl (·.erase ·)
        (derived.foldl Vault.put s.core.vault.rows)) :
    let secrets := (liveSecrets suite link current handshake).map (storedForm rows.values)
    Backed { s.core with
      vault.rows := rows
      latencies := s.core.latencies.insert link.transport latency
      held := s.core.held.insert link.toPair (trioOf secrets)
      directory, unlisted } := by
  intro secrets
  have row := row_enrolled sound follows pos (.inr reached)
  have stored := backed.enrolling row fun id =>
    mem_enrolled_of_ne sound follows pos (.inr reached)
  refine ⟨?_, stored.spread⟩
  intro pair trio there
  rw [ExtTreeMap.getElem?_insert] at there
  split at there
  · rename_i own
    obtain rfl := LawfulEqCmp.compare_eq_iff_eq.1 own
    cases there
    refine ⟨current, pos, ?_, fun _ => row.supports _⟩
    unfold secrets
    rw [liveSecrets_of_follows follows pos,
      periods_trioOf (sound.genuineRows_enrolled follows pos (.inr reached))]
  · exact stored.held pair trio there

section Rollovers

variable (backed : Backed c) (sound : Sound suite origin allowed c)
  (ample : Ample origin c.tolerance allowed now)
include backed sound ample

theorem Backed.spread_started
    (planned : Rollover.Planned suite origin now c.vault.latencies c.tolerance c.vault.rows.values r)
    (pair : Pair) (recorded : pair.transport ∈ c.vault.latencies) :
    Spread fun p => (⟨pair, p⟩ : PeriodId) ∈ persisted r c.vault.rows := by
  rcases backed.persisting sound ample planned recorded with ⟨first, row⟩ | same
  · exact row.spread
  · exact (backed.spread pair recorded).congr same

/-- A start that is refused leaves held what was held. -/
theorem Backed.startRefused
    (planned : Rollover.Planned suite origin now c.vault.latencies c.tolerance c.vault.rows.values r) :
    Backed { c with vault.rows := persisted r c.vault.rows, directory := .empty } := by
  refine ⟨?_, backed.spread_started sound ample planned⟩
  intro pair trio there
  obtain ⟨before, pos, periods, supports⟩ := backed.held pair trio there
  refine ⟨before, pos, periods, ?_⟩
  intro recorded
  rcases backed.persisting sound ample planned recorded with ⟨first, row⟩ | same
  · exact row.supports _
  · exact (supports recorded).mono fun p => (same p).2

theorem Backed.started {directory : Directory}
    (planned : Rollover.Planned suite origin now c.vault.latencies c.tolerance c.vault.rows.values r) :
    Backed { c with
      vault.rows := persisted r c.vault.rows
      latencies := c.vault.latencies
      held := r.held
      directory } := by
  refine ⟨?_, backed.spread_started sound ample planned⟩
  intro pair trio there
  obtain ⟨latency, current, -, at_now, periods, row⟩ :=
    backed.start_periods sound ample planned there
  exact ⟨current, Schedule.pos_of_periodAt at_now, periods, fun _ => row.supports _⟩

theorem Backed.rotated {directory : Directory} {unlisted : ExtTreeSet PeriodId}
    (planned : Rollover.Planned suite origin now c.latencies c.tolerance
      (c.held.values.flatMap Trio.secrets) r) :
    Backed { c with
      vault.rows := persisted r c.vault.rows
      held := r.held
      directory, unlisted } := by
  constructor
  · intro pair trio there
    obtain ⟨latency, current, -, at_now, periods, supports⟩ :=
      backed.rotate_periods sound ample planned there
    exact ⟨current, Schedule.pos_of_periodAt at_now, periods, supports⟩
  · intro pair recorded
    by_cases any : ∃ p, Rollover.HasPeriod (c.held.values.flatMap Trio.secrets) pair p
    · obtain ⟨p, mem⟩ := any
      obtain ⟨trio, there, -⟩ := (hasPeriod_held sound.held).1 mem
      obtain ⟨_, _, _, -, -, -, -, supports⟩ := backed.rotate_row sound ample planned there
      exact (supports recorded).2
    · have same (p : Nat) : (⟨pair, p⟩ : PeriodId) ∈ persisted r c.vault.rows ↔ c.Stores pair p :=
        mem_persisted_of_none planned sound.rows fun p mem => any ⟨p, mem⟩
      exact (backed.spread pair recorded).congr same

end Rollovers

/-- A contact is forgotten, and its secrets are removed or kept. -/
theorem Backed.contactGone {contact : Contact} {rows : ExtTreeMap PeriodId PeriodSecret}
    {directory : Directory} (backed : Backed c)
    (reached : rows = c.vault.rows ∨ rows = c.vault.rows.filter fun id _ => id.contact ≠ contact) :
    Backed { c with
      vault.rows := rows
      held := c.held.filter fun pair _ => pair.contact ≠ contact
      directory } := by
  have forgotten := backed.forget (·.contact = contact) { c.vault with rows } (fun _ _ h => h) ?_ ?_
  · exact ⟨forgotten.held, forgotten.spread⟩
  · intro id stays
    rcases reached with rfl | rfl
    · rfl
    · simp [mem_filter_ids, stays]
  · intro pair goes recorded
    rcases reached with rfl | rfl
    · exact backed.spread pair recorded
    · rintro ⟨p, mem⟩
      simp [mem_filter_ids, goes] at mem

/-- A transport is forgotten, and its secrets and its latency are removed or kept. -/
theorem Backed.transportGone {transport : Transport} {vault : Vault}
    {latencies : ExtTreeMap Transport Nat} {directory : Directory} (backed : Backed c)
    (reached : vault = c.vault ∨
      vault = { c.vault with
        rows := c.vault.rows.filter fun id _ => id.transport ≠ transport
        latencies := c.vault.latencies.erase transport }) :
    Backed { c with
      vault, latencies
      held := c.held.filter fun pair _ => pair.transport ≠ transport
      directory } := by
  have forgotten := backed.forget (·.transport = transport) vault ?_ ?_ ?_
  · exact ⟨forgotten.held, forgotten.spread⟩
  · intro pair stays known
    rcases reached with rfl | rfl
    · exact known
    · exact (ExtTreeMap.mem_erase.1 known).2
  · intro id stays
    rcases reached with rfl | rfl
    · rfl
    · simp [mem_filter_ids, stays]
  · intro pair goes known
    rcases reached with rfl | rfl
    · exact backed.spread pair known
    · rw [goes] at known
      simp at known

end Effects

/-- Whatever an act does, the held secrets stay backed. -/
theorem Backed.effect {s : Station} {act : Act} {report : Report} {c : Core}
    (backed : Backed s.core) (sound : Sound suite origin allowed s.core)
    (follows : act.Follows origin allowed) (ample : Ample origin s.core.tolerance allowed now)
    (effect : Effect suite now s act report c) : Backed c := by
  cases effect with
  | kept => exact backed
  | enrolling at_now reached =>
    have pos := Schedule.pos_of_periodAt at_now
    exact backed.enrolling (row_enrolled sound follows pos reached) fun id =>
      mem_enrolled_of_ne sound follows pos reached
  | enrolled at_now reached =>
    exact backed.enrolled sound follows (Schedule.pos_of_periodAt at_now) reached
  | starting plans =>
    have planned := sound.planned_stored ample.fits plans
    refine backed.storing sound planned ?_
    intro pair p _ mem
    exact ⟨p, (hasPeriod_values sound.rows).1 mem⟩
  | startRefused plans =>
    exact backed.startRefused sound ample (sound.planned_stored ample.fits plans)
  | started plans => exact backed.started sound ample (sound.planned_stored ample.fits plans)
  | rotating plans reached =>
    have planned := sound.planned_held ample.fits plans
    rcases reached with rfl | rfl
    · exact ⟨backed.held, backed.spread⟩
    · have stored := backed.storing sound planned fun pair p recorded mem => by
        obtain ⟨trio, there, -⟩ := (hasPeriod_held sound.held).1 mem
        obtain ⟨before, -, -, supports⟩ := backed.held pair trio there
        exact (supports recorded).nonempty
      exact ⟨stored.held, stored.spread⟩
  | rotated quiet plans => exact backed.rotated sound ample (sound.planned_held ample.fits plans)
  | contactGone reached => exact backed.contactGone reached
  | transportUp => exact ⟨backed.held, backed.spread⟩
  | transportGone reached => exact backed.transportGone reached
  | issued held kept => exact backed.of_rows (Vault.mem_insert_of_kept kept _)
  | @recognized bytes id ticket window directory recognizes =>
    have same := backed.of_rows (Vault.mem_withWindow id window s.core.vault.rows)
    exact ⟨same.held, same.spread⟩
  | stopped | replaced | restarted => exact ⟨by simp, backed.spread⟩

/-! ## Runs -/

theorem backed_stopped {settings : Settings} {serial : Nat} {post : Post}
    (blank : post.vault.vault.rows = ∅) : Backed (core ⟨.stopped settings serial, post⟩) where
  held := by simp [core, Keyring.stopped]
  spread := by
    rintro pair - ⟨p, mem⟩
    rw [Core.Stores, show (core ⟨.stopped settings serial, post⟩).vault.rows = ∅ from blank] at mem
    exact absurd mem ExtTreeMap.not_mem_empty

theorem Backed.run {acts : List (Nat × Act)} {s : Station} (backed : Backed s.core)
    (sound : Sound suite origin allowed s.core)
    (follows : ∀ act ∈ acts, act.2.Follows origin allowed)
    (ample : ∀ act ∈ acts, Ample origin s.core.tolerance allowed act.1) :
    Backed (s.run suite acts).core := by
  refine (run_induction (fun t => Backed t.core ∧ Sound suite origin allowed t.core ∧
    t.core.tolerance = s.core.tolerance) ?_ ⟨backed, sound, rfl⟩).1
  rintro t now act mem ⟨backed, sound, eq⟩
  have effect : Effect suite now (t.atTime now) act _ _ := effect_perform now act t
  have backed' : Backed (t.atTime now).core := backed
  exact ⟨backed'.effect sound (follows _ mem) (eq ▸ ample _ mem) effect,
    sound.perform (follows _ mem) (eq ▸ (ample _ mem).fits), effect.tolerance_eq.trans eq⟩

/-- What a start or a rotation that succeeds leaves held. -/
theorem Backed.periods_of_done {s : Station} {act : Act} {c : Core}
    (backed : Backed s.core) (sound : Sound suite origin allowed s.core)
    (ample : Ample origin s.core.tolerance allowed now) (rolls : act = .start ∨ act = .rotate)
    (effect : Effect suite now s act .done c) {pair : Pair} {trio : Trio}
    (there : c.held[pair]? = some trio) :
    ∃ latency current, c.latencies[pair.transport]? = some latency ∧
      Schedule.periodAt (origin pair).epoch (Schedule.interval latency c.tolerance) now =
        some current ∧
      trio.periods = [some (current - 1), some current, some (current + 1)] := by
  cases effect with
  | enrolled => simp at rolls
  | started plans =>
    obtain ⟨latency, current, known, at_now, periods, -⟩ :=
      backed.start_periods sound ample (sound.planned_stored ample.fits plans) there
    exact ⟨latency, current, known, at_now, periods⟩
  | rotated quiet plans =>
    obtain ⟨latency, current, known, at_now, periods, -⟩ :=
      backed.rotate_periods sound ample (sound.planned_held ample.fits plans) there
    exact ⟨latency, current, known, at_now, periods⟩

theorem Ample.of_tolerance {tolerance : Nat} (pos : 1 ≤ tolerance) (le_top : tolerance ≤ Count.top)
    (roomy : Roomy origin tolerance allowed now) : Ample origin tolerance allowed now where
  pos _ latency _ := by
    rw [Schedule.interval, Count.wrap_eq_self le_top, Count.plus, Count.top]
    omega
  roomy := roomy

/-- From a vault without secrets, whatever happens and whichever calls fail: all stored and held
secrets are those of the chain, and a start or a rotation that succeeds leaves every held pair with
the secrets of the periods before, at and after the current one in their places. -/
theorem live_triples {settings : Settings} {serial : Nat} {post : Post} {acts : List (Nat × Act)}
    (tolerance_pos : 1 ≤ settings.tolerance) (tolerance_le : settings.tolerance ≤ Count.top)
    (blank : post.vault.vault.rows = ∅)
    (recorded : ∀ (transport : Transport) (latency : Nat),
      post.vault.vault.latencies[transport]? = some latency → allowed transport latency)
    (follows : ∀ act ∈ acts, act.2.Follows origin allowed)
    (roomy : ∀ act ∈ acts, Roomy origin settings.tolerance allowed act.1) :
    let s := run suite acts ⟨.stopped settings serial, post⟩
    (∀ (id : PeriodId) (x : PeriodSecret), s.post.vault.vault.rows[id]? = some x →
      x.id = id ∧ x.key = suite.chain (origin id.toPair).handshake id.period) ∧
    (∀ (pair : Pair) (trio : Trio), s.keyring.held[pair]? = some trio →
      ∀ turn x, trio.get turn = some x →
        x.pair = pair ∧ x.key = suite.chain (origin pair).handshake x.period) ∧
    ∀ now act t, act = .start ∨ act = .rotate → Roomy origin settings.tolerance allowed now →
      s.perform suite now act = (.done, t) →
      ∀ (pair : Pair) (trio : Trio), t.keyring.held[pair]? = some trio →
        ∃ latency, t.keyring.latencies[pair.transport]? = some latency ∧
          (origin pair).epoch ≤ now ∧
          let current := (now - (origin pair).epoch) /
            Schedule.interval latency settings.tolerance + 1
          trio.periods = [some (current - 1), some current, some (current + 1)] := by
  intro s
  have ample (now : Nat) (roomy : Roomy origin settings.tolerance allowed now) :=
    Ample.of_tolerance tolerance_pos tolerance_le roomy
  have tolerance : s.core.tolerance = settings.tolerance := tolerance_run acts _
  have sound : Sound suite origin allowed s.core :=
    (sound_stopped blank recorded).run follows fun act mem => (ample _ (roomy act mem)).fits
  have backed : Backed s.core :=
    (backed_stopped blank).run (sound_stopped blank recorded) follows fun act mem =>
      ample _ (roomy act mem)
  refine ⟨?_, ?_, ?_⟩
  · intro id x there
    obtain ⟨named, real⟩ := sound.rows id x there
    refine ⟨named, ?_⟩
    rw [real.key, ← named]
    rfl
  · intro pair trio there turn x stands
    obtain ⟨first, row⟩ := sound.held pair trio there
    obtain ⟨own, -, real⟩ := row turn x stands
    exact ⟨own, by rw [real.key, own]⟩
  · intro now act t rolls roomy performed pair trio there
    have effect : Effect suite now (s.atTime now) act _ _ := effect_perform now act s
    rw [performed] at effect
    have backed' : Backed (s.atTime now).core := backed
    obtain ⟨latency, current, known, at_now, periods⟩ :=
      backed'.periods_of_done sound (tolerance ▸ ample now roomy) rolls effect there
    rw [effect.tolerance_eq, show (s.atTime now).core.tolerance = settings.tolerance from tolerance]
      at at_now
    obtain ⟨after, rfl⟩ := Schedule.of_periodAt at_now
    exact ⟨latency, known, after, periods⟩

/-- A link is enrolled and rotated, and the keyring is lost before it is started again. -/
theorem live_triples_started_again :
    let acts : List (Nat × Act) :=
      [(1000, .enroll ⟨⟨1, "tcp"⟩, 0, .alice⟩ 20 .wiped), (4000000, .rotate), (4000001, .replace 1)]
    let s := run bare acts
      ⟨.stopped .standard 0, Peer.postAt ⟨.setLatency "tcp" 20 .empty, .clear⟩ 0⟩
    let ended := s.perform bare 9000000 .start
    ended.1 = .done ∧ ∃ trio : Trio, ended.2.keyring.held[(⟨1, "tcp"⟩ : Pair)]? = some trio ∧
      ∃ latency, ended.2.keyring.latencies["tcp"]? = some latency ∧ 0 ≤ 9000000 ∧
        let current := (9000000 - 0) / Schedule.interval latency 3600000 + 1
        trio.periods = [some (current - 1), some current, some (current + 1)] := by
  intro acts s ended
  have done : ended.1 = .done := by
    decide +kernel
  have held : (ended.2.keyring.held[(⟨1, "tcp"⟩ : Pair)]?).isSome = true := by
    decide +kernel
  obtain ⟨trio, there⟩ := Option.isSome_iff_exists.1 held
  have follows : ∀ act ∈ acts, act.2.Follows (fun _ => ⟨0, .alice, .wiped⟩) fun _ _ => True := by
    simp [acts, Act.Follows, Origin.link]
  have roomy (now : Nat) (early : now < 10000000) :
      Roomy (fun _ => ⟨0, .alice, .wiped⟩) 3600000 (fun _ _ => True) now :=
    roomy_of_lt (by rw [Count.top]; omega)
  have early : ∀ act ∈ acts, act.1 < 10000000 := by
    simp [acts]
  have live := (@live_triples bare _ _ .standard 0
    (Peer.postAt ⟨.setLatency "tcp" 20 .empty, .clear⟩ 0) acts (by decide) (by decide) rfl
    (fun _ _ _ => trivial) follows fun act mem => roomy act.1 (early act mem)).2.2
  exact ⟨done, trio, there, live 9000000 .start ended.2 (.inl rfl) (roomy _ (by decide))
    (Prod.ext done rfl) ⟨1, "tcp"⟩ trio there⟩

end Station

end SealedStream
