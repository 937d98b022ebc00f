import SealedStream.Proofs.Station.Mirror

/-!
# What enrolling leaves of a pair

Enrolling adds the secrets of the three periods around the current one, and removes what the keyring
holds of the pair for other periods. It goes by what is held, not by what is stored: a stored secret
of another period stays if it is not held. And a stored secret with the key of a new one stays as it
is, with the link that it was stored with.

## Main definitions

* `Station.Core.Holds` — a secret is held for its pair.
* `Station.Enrolled` — what enrolling makes of the rows of a pair and of its trio.
* `Station.Established` — the secrets of a pair are those of one link around one period.

## Main statements

* `Station.Effect.enrolled_of_done` — an enrollment that succeeds leaves the pair enrolled.
* `Station.replaces_iff` — when an enrollment replaces all that there was of its pair.
-/

namespace SealedStream.Station

open Std Rollover

variable {suite : Suite} {link : Link} {current now : Nat} {handshake : Key} {c c' : Core}

/-! ## The secrets of a link -/

/-- The secret is that of a link and of the chain of a handshake. -/
structure OfLink (suite : Suite) (link : Link) (handshake : Key) (s : PeriodSecret) : Prop where
  link : s.link = link
  key : s.key = suite.chain handshake s.period

@[simp] theorem id_fresh (link : Link) (period : Nat) (key : Key) :
    (PeriodSecret.fresh link period key).id = ⟨link.toPair, period⟩ := rfl

/-- Enrolling derives the chain's secrets of the periods around the current one. -/
theorem mem_liveSecrets (pos : 0 < current) {s : PeriodSecret} :
    s ∈ liveSecrets suite link current handshake ↔
      ∃ period, Near current period ∧ s = .fresh link period (suite.chain handshake period) := by
  have derived := @liveSecrets_eq suite (fun _ => ⟨link.epoch, link.side, handshake⟩) link.toPair
    current pos handshake rfl
  rw [show liveSecrets suite link current handshake = _ from derived]
  simp only [around, PeriodSecret.ofChain, Origin.link, List.mem_cons, List.not_mem_nil, or_false]
  constructor
  · rintro (rfl | rfl | rfl)
    · exact ⟨_, .inl (by omega), rfl⟩
    · exact ⟨_, .inr (.inl rfl), rfl⟩
    · exact ⟨_, .inr (.inr rfl), rfl⟩
  · rintro ⟨period, rfl | rfl | rfl, rfl⟩
    · exact .inl rfl
    · exact .inr (.inl rfl)
    · exact .inr (.inr rfl)

theorem apart_liveSecrets (pos : 0 < current) :
    (liveSecrets suite link current handshake).Pairwise (·.id ≠ ·.id) := by
  simp [liveSecrets]
  omega

/-- A row with the key of a new secret stays as it is. -/
theorem merged_some_fresh {before : PeriodSecret} {period : Nat} {key : Key} :
    Vault.merged (some before) (.fresh link period key) =
      if before.key = key then before else .fresh link period key := by
  simp [Vault.merged, PeriodSecret.fresh]

/-- What is stored of a new secret has its identity and key. Its link is the new one, unless a row
with the same key was there. -/
theorem merged_fresh {row? : Option PeriodSecret} {period : Nat} {key : Key}
    (named : ∀ row ∈ row?, row.id = ⟨link.toPair, period⟩) :
    let row := Vault.merged row? (.fresh link period key)
    row.id = ⟨link.toPair, period⟩ ∧ row.key = key ∧
      (row.link = link ↔ ∀ before ∈ row?, before.key = key → before.link = link) := by
  cases row? with
  | none => exact ⟨rfl, rfl, by simp [Vault.merged, PeriodSecret.fresh]⟩
  | some before =>
    rw [merged_some_fresh]
    by_cases same : before.key = key
    · rw [if_pos same]
      exact ⟨named before rfl, same, by simp [same]⟩
    · rw [if_neg same]
      exact ⟨rfl, rfl, by simp [PeriodSecret.fresh, same]⟩

/-! ## An enrolled pair -/

/-- A secret of the given identity is held for its pair. -/
def Core.Holds (c : Core) (id : PeriodId) : Prop :=
  ∃ trio : Trio, c.held[id.toPair]? = some trio ∧ ∃ turn x, trio.get turn = some x ∧ x.id = id

instance (c : Core) (id : PeriodId) : Decidable (c.Holds id) :=
  decidable_of_iff (∃ x ∈ (c.held[id.toPair]?).elim [] Trio.secrets, x.id = id) <| by
    unfold Core.Holds
    cases c.held[id.toPair]? with
    | none => simp
    | some trio => simp only [Option.elim_some, Trio.mem_secrets]; grind

/-- The periods around the current one are stored and held. Of the other periods, those are removed
that were held. -/
structure Enrolled (suite : Suite) (link : Link) (handshake : Key) (current : Nat) (c c' : Core) :
    Prop where
  near : ∀ period, Near current period →
    c'.vault.rows[(⟨link.toPair, period⟩ : PeriodId)]? = some (Vault.merged
      c.vault.rows[(⟨link.toPair, period⟩ : PeriodId)]?
      (.fresh link period (suite.chain handshake period)))
  gone : ∀ period, ¬ Near current period → c.Holds ⟨link.toPair, period⟩ →
    c'.vault.rows[(⟨link.toPair, period⟩ : PeriodId)]? = none
  kept : ∀ period, ¬ Near current period → ¬ c.Holds ⟨link.toPair, period⟩ →
    c'.vault.rows[(⟨link.toPair, period⟩ : PeriodId)]? =
      c.vault.rows[(⟨link.toPair, period⟩ : PeriodId)]?
  held : ∃ trio, c'.held[link.toPair]? = some trio ∧ ∀ turn : Turn,
    ∃ (period : Nat) (x : PeriodSecret), (period : Int) = current + turn.offset ∧
      trio.get turn = some x ∧ c'.vault.rows[(⟨link.toPair, period⟩ : PeriodId)]? = some x

/-- An enrollment that succeeds leaves the pair enrolled. -/
theorem Effect.enrolled_of_done {s : Station} {latency : Nat}
    (effect : Effect suite now s (.enroll link latency handshake) .done c)
    (named : Vault.RowsOf (fun _ => True) s.core.vault.rows) :
    ∃ current, Schedule.periodAt link.epoch (Schedule.interval latency s.core.tolerance) now =
      some current ∧ Enrolled suite link handshake current s.core c := by
  cases effect with
  | rotated quiet plans offered rolls => simp at rolls
  | @enrolled _ _ current _ rows _ _ at_now reached =>
    have pos := Schedule.pos_of_periodAt at_now
    have named' : Vault.RowsOf (fun _ => True) rows :=
      reached ▸ (named.putAll (fun _ _ _ => id) fun _ _ => trivial).eraseAll _
    have derived {period : Nat} (near : Near current period) :
        .fresh link period (suite.chain handshake period) ∈
          liveSecrets suite link current handshake :=
      (mem_liveSecrets pos).2 ⟨period, near, rfl⟩
    have stale_iff {period : Nat} : (⟨link.toPair, period⟩ : PeriodId) ∈
        staleIds s.keyring link.toPair (liveSecrets suite link current handshake) ↔
          s.core.Holds ⟨link.toPair, period⟩ ∧ ¬ Near current period := by
      rw [mem_staleIds]
      refine and_congr_right fun _ => ⟨fun others near => others _ (derived near) rfl, ?_⟩
      rintro far x mem named
      obtain ⟨period', near, rfl⟩ := (mem_liveSecrets pos).1 mem
      obtain ⟨-, rfl⟩ := PeriodId.mk.inj named
      exact far near
    have near (period : Nat) (near : Near current period) :
        rows[(⟨link.toPair, period⟩ : PeriodId)]? = some (Vault.merged
          s.core.vault.rows[(⟨link.toPair, period⟩ : PeriodId)]?
          (.fresh link period (suite.chain handshake period))) := by
      rw [reached, Vault.getElem?_eraseAll, if_neg fun stale => (stale_iff.1 stale).2 near]
      exact Vault.getElem?_putAll_of_mem (apart_liveSecrets pos) (derived near)
    refine ⟨current, at_now, near, ?_, ?_, _, ExtTreeMap.getElem?_insert_self, ?_⟩
    · intro period far held
      change rows[_]? = _
      rw [reached, Vault.getElem?_eraseAll, if_pos (stale_iff.2 ⟨held, far⟩)]
    · intro period far unheld
      change rows[_]? = _
      rw [reached, Vault.getElem?_eraseAll, if_neg fun stale => unheld (stale_iff.1 stale).1,
        Vault.getElem?_putAll_of_forall_ne]
      intro x mem same
      obtain ⟨period', near, rfl⟩ := (mem_liveSecrets pos).1 mem
      obtain ⟨-, rfl⟩ := PeriodId.mk.inj same
      exact far near
    · intro turn
      obtain ⟨x, mem, place, there⟩ :=
        get_trioOf_liveSecrets suite pos (storedForm rows.values) turn
      obtain ⟨period, close, rfl⟩ := (mem_liveSecrets pos).1 mem
      refine ⟨period, _, place, there, ?_⟩
      rw [storedForm_values named', id_fresh, near period close]
      rfl

namespace Enrolled

variable (enrolled : Enrolled suite link handshake current c c')
  (named : Vault.RowsOf (fun _ => True) c.vault.rows)
include enrolled named

/-- What an enrollment stores has its period and the key of the new chain, and it has the new link
unless a row with the same key had another one. -/
theorem row_of_near {period : Nat} (near : Near current period) :
    ∃ row, c'.vault.rows[(⟨link.toPair, period⟩ : PeriodId)]? = some row ∧
      row.id = ⟨link.toPair, period⟩ ∧ row.key = suite.chain handshake period ∧
      (row.link = link ↔ ∀ before ∈ c.vault.rows[(⟨link.toPair, period⟩ : PeriodId)]?,
        before.key = suite.chain handshake period → before.link = link) := by
  refine ⟨_, enrolled.near period near, merged_fresh ?_⟩
  exact fun before there => (named _ before there).1

/-- The trio of an enrolled pair holds the rows of the periods around the current one. -/
theorem periods_held (pos : 0 < current) :
    ∃ trio : Trio, c'.held[link.toPair]? = some trio ∧
      trio.periods = [some (current - 1), some current, some (current + 1)] ∧
      ∀ turn x, trio.get turn = some x → x.pair = link.toPair ∧ c'.vault.rows[x.id]? = some x := by
  obtain ⟨trio, there, stands⟩ := enrolled.held
  have at_turn (turn : Turn) : ∃ x, trio.get turn = some x ∧
      (x.period : Int) = current + turn.offset ∧ x.pair = link.toPair ∧
        c'.vault.rows[x.id]? = some x := by
    obtain ⟨period, x, place, held, stored⟩ := stands turn
    have near : Near current period := near_iff_exists_offset.2 ⟨turn, place⟩
    obtain ⟨row, there', own, -⟩ := enrolled.row_of_near named near
    obtain rfl := Option.some.inj (there'.symm.trans stored)
    obtain ⟨pair, rfl⟩ := PeriodId.mk.inj own
    exact ⟨row, held, place, pair, own ▸ stored⟩
  refine ⟨trio, there, ?_, ?_⟩
  · obtain ⟨x, old, at_old, -⟩ := at_turn .old
    obtain ⟨y, mid, at_mid, -⟩ := at_turn .current
    obtain ⟨z, new, at_new, -⟩ := at_turn .new
    simp only [Turn.offset] at at_old at_mid at_new
    simp only [Trio.periods, Turn.all, List.map_cons, List.map_nil, old, mid, new, Option.map_some,
      List.cons.injEq, Option.some.injEq, and_true]
    omega
  · intro turn x held
    obtain ⟨y, held', -, stored⟩ := at_turn turn
    obtain rfl := Option.some.inj (held.symm.trans held')
    exact stored

theorem holds_iff (pos : 0 < current) {period : Nat} :
    c'.Holds ⟨link.toPair, period⟩ ↔ Near current period := by
  obtain ⟨trio, there, periods, stored⟩ := enrolled.periods_held named pos
  have near_iff : Near current period ↔ some period ∈ trio.periods := by
    simp only [periods, Near, List.mem_cons, List.not_mem_nil, or_false, Option.some.injEq]
    omega
  simp only [near_iff, Trio.periods, List.mem_map, Option.map_eq_some_iff]
  constructor
  · rintro ⟨trio', there', turn, x, stands, named⟩
    obtain rfl := Option.some.inj (there.symm.trans there')
    exact ⟨turn, by cases turn <;> decide, x, stands, congrArg PeriodId.period named⟩
  · rintro ⟨turn, -, x, stands, rfl⟩
    refine ⟨trio, there, turn, x, stands, ?_⟩
    rw [PeriodSecret.id, ← (stored turn x stands).1]
    rfl

end Enrolled

/-- The three secrets around the current period, and no others, are stored and held for the pair, and
they are those of the link. -/
structure Established (suite : Suite) (link : Link) (handshake : Key) (current : Nat) (c : Core) :
    Prop where
  stored : ∀ period, (⟨link.toPair, period⟩ : PeriodId) ∈ c.vault.rows ↔ Near current period
  rows : ∀ (period : Nat) (row : PeriodSecret),
    c.vault.rows[(⟨link.toPair, period⟩ : PeriodId)]? = some row →
      row.id = ⟨link.toPair, period⟩ ∧ OfLink suite link handshake row
  held : ∃ trio : Trio, c.held[link.toPair]? = some trio ∧
    trio.periods = [some (current - 1), some current, some (current + 1)] ∧
    ∀ turn x, trio.get turn = some x → OfLink suite link handshake x

/-- An enrollment establishes its link just if it knows of all that is stored of the pair, and if no
secret of another link has the key of a new one. -/
theorem Enrolled.established_iff (enrolled : Enrolled suite link handshake current c c')
    (named : Vault.RowsOf (fun _ => True) c.vault.rows) (pos : 0 < current) :
    Established suite link handshake current c' ↔
      (∀ period, (⟨link.toPair, period⟩ : PeriodId) ∈ c.vault.rows → ¬ Near current period →
        c.Holds ⟨link.toPair, period⟩) ∧
      ∀ (period : Nat) (row : PeriodSecret), Near current period →
        c.vault.rows[(⟨link.toPair, period⟩ : PeriodId)]? = some row →
          row.key = suite.chain handshake period → row.link = link := by
  constructor
  · intro established
    constructor
    · intro period stored far
      by_contra unheld
      refine far ((established.stored period).1 ?_)
      rwa [ExtTreeMap.mem_iff_isSome_getElem?, enrolled.kept period far unheld,
        ← ExtTreeMap.mem_iff_isSome_getElem?]
    · intro period before near there key
      obtain ⟨row, there', -, -, link_iff⟩ := enrolled.row_of_near named near
      exact link_iff.1 (established.rows period row there').2.link before there key
  · rintro ⟨known, links⟩
    have stored (period : Nat) :
        (⟨link.toPair, period⟩ : PeriodId) ∈ c'.vault.rows ↔ Near current period := by
      rw [ExtTreeMap.mem_iff_isSome_getElem?]
      by_cases near : Near current period
      · simp [enrolled.near period near, near]
      refine iff_of_false ?_ near
      by_cases held : c.Holds ⟨link.toPair, period⟩
      · simp [enrolled.gone period near held]
      · rw [enrolled.kept period near held, ← ExtTreeMap.mem_iff_isSome_getElem?]
        exact fun before => held (known period before near)
    have rows (period : Nat) (row : PeriodSecret)
        (there : c'.vault.rows[(⟨link.toPair, period⟩ : PeriodId)]? = some row) :
        row.id = ⟨link.toPair, period⟩ ∧ OfLink suite link handshake row := by
      have near : Near current period := (stored period).1 (by
        rw [ExtTreeMap.mem_iff_isSome_getElem?, there, Option.isSome_some])
      obtain ⟨row', there', own, key, link_iff⟩ := enrolled.row_of_near named near
      obtain rfl := Option.some.inj (there'.symm.trans there)
      obtain ⟨-, rfl⟩ := PeriodId.mk.inj own
      exact ⟨own, link_iff.2 fun before there => links _ before near there, key⟩
    obtain ⟨trio, there, periods, held⟩ := enrolled.periods_held named pos
    refine ⟨stored, rows, trio, there, periods, fun turn x stands => ?_⟩
    obtain ⟨pair, stored⟩ := held turn x stands
    exact (rows x.period x (by rw [← stored, ← pair]; rfl)).2

/-! ## Enrolling in a run -/

theorem perform_eq {s : Station} {act : Act} {report : Report}
    (reports : (s.perform suite now act).1 = report) :
    s.perform suite now act = (report, (s.perform suite now act).2) :=
  Prod.ext reports rfl

/-- From any rows, whatever happens and whichever calls fail: an enrollment that succeeds leaves the
three secrets around the current period stored and held, with the keys of the new chain. It leaves
nothing else of the pair, and those secrets with the new link, exactly if all that was stored for
other periods was held, and all that was stored of these with the new keys had the new link. -/
theorem replaces_iff {settings : Settings} {serial : Nat} {post : Post} {acts : List (Nat × Act)}
    {latency : Nat} {t : Station} (named : Vault.RowsOf (fun _ => True) post.vault.vault.rows)
    (performed : (run suite acts ⟨.stopped settings serial, post⟩).perform suite now
      (.enroll link latency handshake) = (.done, t)) :
    let s := run suite acts ⟨.stopped settings serial, post⟩
    let current := (now - link.epoch) / Schedule.interval latency settings.tolerance + 1
    link.epoch ≤ now ∧
    (∀ period, Near current period → ∃ row,
      t.core.vault.rows[(⟨link.toPair, period⟩ : PeriodId)]? = some row ∧
        row.id = ⟨link.toPair, period⟩ ∧ row.key = suite.chain handshake period) ∧
    (∃ trio : Trio, t.core.held[link.toPair]? = some trio ∧
      trio.periods = [some (current - 1), some current, some (current + 1)] ∧
      ∀ turn x, trio.get turn = some x → x.pair = link.toPair ∧ t.core.vault.rows[x.id]? = some x) ∧
    (Established suite link handshake current t.core ↔
      (∀ period, (⟨link.toPair, period⟩ : PeriodId) ∈ s.core.vault.rows → ¬ Near current period →
        s.core.Holds ⟨link.toPair, period⟩) ∧
      ∀ (period : Nat) (row : PeriodSecret), Near current period →
        s.core.vault.rows[(⟨link.toPair, period⟩ : PeriodId)]? = some row →
          row.key = suite.chain handshake period → row.link = link) := by
  intro s current
  have tolerance : s.core.tolerance = settings.tolerance := tolerance_run acts _
  have named' : Vault.RowsOf (fun _ => True) s.core.vault.rows := named_run named
  have effect : Effect suite now (s.atTime now) (.enroll link latency handshake) _ _ :=
    effect_perform now _ s
  rw [performed] at effect
  obtain ⟨period, at_now, enrolled⟩ := effect.enrolled_of_done named'
  have pos := Schedule.pos_of_periodAt at_now
  rw [show (s.atTime now).core.tolerance = settings.tolerance from tolerance] at at_now
  obtain ⟨after, eq⟩ := Schedule.of_periodAt at_now
  obtain rfl : current = period := eq.symm
  refine ⟨after, ?_, enrolled.periods_held named' pos, enrolled.established_iff named' pos⟩
  intro period near
  obtain ⟨row, there, own, key, -⟩ := enrolled.row_of_near named' near
  exact ⟨row, there, own, key⟩

/-- A second handshake replaces what is stored and held of the first one. -/
theorem replaces_enrolled :
    let post := Peer.postAt ⟨.setLatency "tcp" 20 .empty, .clear⟩ 0
    let acts := [(0, .start), (1000, .enroll ⟨⟨1, "tcp"⟩, 0, .alice⟩ 20 .wiped)]
    let s := run bare acts ⟨.stopped .standard 0, post⟩
    let link : Link := ⟨⟨1, "tcp"⟩, 1000000, .bob⟩
    let handshake := Key.wiped.set 3 1
    let ended := s.perform bare 5000000 (.enroll link 20 handshake)
    (⟨⟨1, "tcp"⟩, 0⟩ ∈ s.core.vault.rows ∧ ⟨⟨1, "tcp"⟩, 2⟩ ∈ s.core.vault.rows) ∧
      ended.1 = .done ∧ Established bare link handshake 2 ended.2.core := by
  intro post acts s link handshake ended
  have stored : ⟨⟨1, "tcp"⟩, 0⟩ ∈ s.core.vault.rows ∧ ⟨⟨1, "tcp"⟩, 2⟩ ∈ s.core.vault.rows := by
    decide +kernel
  have done : ended.1 = .done := by
    decide +kernel
  have known : ∀ entry ∈ s.core.vault.rows.toList, s.core.Holds entry.1 ∧
      entry.2.key ≠ bare.chain handshake entry.1.period := by
    decide +kernel
  have established := (@replaces_iff bare link 5000000 handshake .standard 0 post acts 20 ended.2 ?_
    (perform_eq done)).2.2.2
  · rw [show (5000000 - link.epoch) / Schedule.interval 20 Settings.standard.tolerance + 1 = 2 by
      decide] at established
    refine ⟨stored, done, established.2 ⟨?_, ?_⟩⟩
    · intro period stored _
      have there := ExtTreeMap.getElem?_eq_some_getElem stored
      exact (known _ (ExtTreeMap.mem_toList_iff_getElem?_eq_some.2 there)).1
    · intro period row _ there same
      exact absurd same (known _ (ExtTreeMap.mem_toList_iff_getElem?_eq_some.2 there)).2
  · intro id x there
    cases there

/-- A link is enrolled, the keyring is stopped, and the link is enrolled again much later: what was
stored first is still there. -/
theorem not_established_stopped :
    let post := Peer.postAt ⟨.setLatency "tcp" 20 .empty, .clear⟩ 0
    let acts := [(0, .start), (1000, .enroll ⟨⟨1, "tcp"⟩, 0, .alice⟩ 20 .wiped), (2000, .stop)]
    let ended := (run bare acts ⟨.stopped .standard 0, post⟩).perform bare 40000000
      (.enroll ⟨⟨1, "tcp"⟩, 0, .alice⟩ 20 .wiped)
    ended.1 = .done ∧ ¬ Established bare ⟨⟨1, "tcp"⟩, 0, .alice⟩ .wiped 12 ended.2.core := by
  intro post acts ended
  have left_over : ended.1 = .done ∧ ⟨⟨1, "tcp"⟩, 0⟩ ∈ ended.2.core.vault.rows := by decide +kernel
  refine ⟨left_over.1, fun established => ?_⟩
  have near := (established.stored 0).1 left_over.2
  simp [Near] at near

end SealedStream.Station
