import SealedStream.Proofs.Bare
import SealedStream.Proofs.Rollover.Links
import SealedStream.Proofs.Station.Windows

/-!
# The directory mirrors the keyring

A keyring lists the secrets that it comes to hold and takes off the directory those that it gives up,
each act in its own way. If all links that are enrolled for a pair are one, then the directory lists
just the held secrets after every act but one: a start holds what a rollover of the stored secrets
leaves, and what was held until then stays listed even if the start gives it up.

## Main definitions

* `Station.Tied` — stored and held secrets have the links of their pairs.
* `Station.Core.Mirrored` — the directory lists the held secrets and no others.

## Main statements

* `Station.Tied.effect` — no act leaves a secret with another link.
* `Station.Tied.mirrored_effect` — what an act leaves mirrored.
* `Station.mirrored_iff_starts_keep` — when the directory mirrors the keyring throughout a run.
-/

namespace SealedStream

open Std

namespace Station

variable {suite : Suite} {origin : Pair → Origin} {now : Nat} {t : Station} {act : Act}
  {report : Report} {c : Core}

/-! ## Secrets with the links of their pairs -/

/-- The secrets of a trio have the link of the pair, and no two of them have one period. -/
structure TiedTrio (origin : Pair → Origin) (pair : Pair) (trio : Trio) : Prop where
  link : ∀ turn x, trio.get turn = some x → x.link = (origin pair).link pair
  apart : ∀ turn turn' x y, trio.get turn = some x → trio.get turn' = some y →
    x.period = y.period → turn = turn'

/-- The secrets have the links of their pairs and are kept under their identities. -/
abbrev LinkedRows (origin : Pair → Origin) (rows : ExtTreeMap PeriodId PeriodSecret) : Prop :=
  Vault.RowsOf (fun s => s.link = (origin s.pair).link s.pair) rows

theorem lasting_link : Vault.Lasting fun s => s.link = (origin s.pair).link s.pair :=
  fun _ _ _ => id

/-- Stored and held secrets have the links of their pairs. -/
structure Tied (origin : Pair → Origin) (c : Core) : Prop where
  rows : LinkedRows origin c.vault.rows
  held : ∀ (pair : Pair) (trio : Trio), c.held[pair]? = some trio → TiedTrio origin pair trio

/-- The act enrolls no link but that of its pair's origin, and the directory stays with its
keyring. -/
def Act.Bound (origin : Pair → Origin) : Act → Prop
  | .enroll link _ _ => link = (origin link.toPair).link link.toPair
  | .replace _ => False
  | _ => True

theorem TiedTrio.pair_eq {pair : Pair} {trio : Trio} (tied : TiedTrio origin pair trio) {turn : Turn}
    {x : PeriodSecret} (stands : trio.get turn = some x) : x.pair = pair :=
  congrArg Link.toPair (tied.link turn x stands)

/-- A held secret is found where its pair is held. -/
theorem holds_iff {held : ExtTreeMap Pair Trio}
    (tied : ∀ (pair : Pair) (trio : Trio), held[pair]? = some trio → TiedTrio origin pair trio)
    {id : PeriodId} :
    (∃ x ∈ held.values.flatMap Trio.secrets, x.id = id) ↔
      ∃ trio : Trio, held[id.toPair]? = some trio ∧ ∃ turn x, trio.get turn = some x ∧ x.id = id := by
  constructor
  · rintro ⟨x, mem, rfl⟩
    obtain ⟨pair, trio, turn, there, stands⟩ := mem_heldSecrets.1 mem
    obtain rfl := (tied pair trio there).pair_eq stands
    exact ⟨trio, there, turn, x, stands, rfl⟩
  · rintro ⟨trio, there, turn, x, stands, named⟩
    exact ⟨x, mem_heldSecrets.2 ⟨_, trio, turn, there, stands⟩, named⟩

namespace Tied

variable (tied : Tied origin c)
include tied

theorem linked_stored : Rollover.Linked origin c.vault.rows.values where
  link s mem := by
    obtain ⟨id, there⟩ := mem_values.1 mem
    exact (tied.rows id s there).2
  distinct s mem t mem' same := tied.rows.eq_of_mem mem mem' same

theorem linked_held : Rollover.Linked origin c.secrets where
  link s mem := by
    obtain ⟨pair, trio, turn, there, stands⟩ := mem_heldSecrets.1 mem
    have own := (tied.held pair trio there).pair_eq stands
    rw [own, (tied.held pair trio there).link turn s stands]
  distinct s mem t mem' same := by
    obtain ⟨pair, trio, turn, there, stands⟩ := mem_heldSecrets.1 mem
    obtain ⟨pair', trio', turn', there', stands'⟩ := mem_heldSecrets.1 mem'
    obtain ⟨same_pair, period⟩ := PeriodId.mk.inj same
    obtain rfl : pair = pair' :=
      ((tied.held pair trio there).pair_eq stands).symm.trans
        (same_pair.trans ((tied.held pair' trio' there').pair_eq stands'))
    obtain rfl := Option.some.inj (there.symm.trans there')
    obtain rfl := (tied.held pair trio there).apart turn turn' s t stands stands' period
    exact Option.some.inj (stands.symm.trans stands')

end Tied

/-! ### Rollovers -/

section Rolled

variable {latencies : ExtTreeMap Transport Nat} {tolerance : Nat} {secrets : List PeriodSecret}
  {r : Rollover} (linked : Rollover.Linked origin secrets)
  (plans : Rollover.plan suite now latencies tolerance secrets = .ok r)
include linked plans

theorem tiedTrio_rolled {pair : Pair} {trio : Trio} (there : r.held[pair]? = some trio) :
    TiedTrio origin pair trio := by
  have of_held {turn : Turn} {x : PeriodSecret} (stands : trio.get turn = some x) :=
    linked.of_held plans (show (r.held[pair]?).bind (·.get turn) = some x by rw [there]; exact stands)
  refine ⟨fun turn x stands => (of_held stands).1, ?_⟩
  intro turn turn' x y stands stands' period
  obtain ⟨link, -, live⟩ := of_held stands
  obtain ⟨link', -, live'⟩ := of_held stands'
  have same : Rollover.stage? now latencies tolerance x = Rollover.stage? now latencies tolerance y := by
    simp only [Rollover.stage?, Rollover.lifespan?, link, link', period]
  rw [live, live'] at same
  cases same
  rfl

end Rolled

/-! ### Enrolling -/

theorem link_of_mem_liveSecrets {link : Link} {current : Nat} {handshake : Key} {s : PeriodSecret}
    (mem : s ∈ liveSecrets suite link current handshake) : s.link = link := by
  simp only [liveSecrets, List.mem_cons, List.not_mem_nil, or_false] at mem
  rcases mem with rfl | rfl | rfl <;> rfl

theorem id_storedForm (stored : List PeriodSecret) (s : PeriodSecret) :
    (storedForm stored s).id = s.id := by
  unfold storedForm
  cases found : stored.find? (·.id = s.id) with
  | none => rfl
  | some row => simpa using List.find?_some found

theorem LinkedRows.link_storedForm {rows : ExtTreeMap PeriodId PeriodSecret}
    (linked : LinkedRows origin rows) {s : PeriodSecret}
    (link : s.link = (origin s.pair).link s.pair) : (storedForm rows.values s).link = s.link := by
  unfold storedForm
  cases found : rows.values.find? (·.id = s.id) with
  | none => rfl
  | some row =>
    obtain ⟨id, there⟩ := mem_values.1 (List.mem_of_find?_eq_some found)
    have named : row.id = s.id := by simpa using List.find?_some found
    have own : row.pair = s.pair := congrArg PeriodId.toPair named
    rw [Option.getD_some, (linked id row there).2, own, link]

variable (suite) in
/-- Every place of an enrolled trio is taken by the secret of its period. -/
theorem get_trioOf_liveSecrets {link : Link} {current : Nat} (pos : 0 < current) {handshake : Key}
    (form : PeriodSecret → PeriodSecret) (turn : Turn) :
    ∃ s ∈ liveSecrets suite link current handshake, (s.period : Int) = current + turn.offset ∧
      (trioOf ((liveSecrets suite link current handshake).map form)).get turn = some (form s) := by
  cases turn with
  | old =>
    refine ⟨_, List.mem_cons_self, ?_, rfl⟩
    simp only [PeriodSecret.fresh, Turn.offset]
    omega
  | current =>
    exact ⟨_, List.mem_cons_of_mem _ List.mem_cons_self, by simp [PeriodSecret.fresh, Turn.offset],
      rfl⟩
  | new =>
    exact ⟨_, List.mem_cons_of_mem _ (List.mem_cons_of_mem _ List.mem_cons_self),
      by simp [PeriodSecret.fresh, Turn.offset], rfl⟩

theorem tiedTrio_enrolled {link : Link} {current : Nat} {handshake : Key}
    {rows : ExtTreeMap PeriodId PeriodSecret} (pos : 0 < current)
    (own : link = (origin link.toPair).link link.toPair) (linked : LinkedRows origin rows) :
    TiedTrio origin link.toPair
      (trioOf ((liveSecrets suite link current handshake).map (storedForm rows.values))) := by
  have of_get {turn : Turn} {x : PeriodSecret}
      (stands : (trioOf ((liveSecrets suite link current handshake).map
        (storedForm rows.values))).get turn = some x) :
      x.link = link ∧ (x.period : Int) = current + turn.offset := by
    obtain ⟨s, mem, place, there⟩ :=
      get_trioOf_liveSecrets suite pos (storedForm rows.values) turn
    obtain rfl := Option.some.inj (there.symm.trans stands)
    have from_link := link_of_mem_liveSecrets mem
    have period : (storedForm rows.values s).period = s.period :=
      congrArg PeriodId.period (id_storedForm rows.values s)
    refine ⟨(linked.link_storedForm ?_).trans from_link, by rw [period, place]⟩
    rw [PeriodSecret.pair, from_link, ← own]
  refine ⟨fun turn x stands => (of_get stands).1.trans own, ?_⟩
  intro turn turn' x y stands stands' period
  have place := (of_get stands).2
  have place' := (of_get stands').2
  exact Turn.offset_injective (by omega)

/-- No act leaves a secret with another link. -/
theorem Tied.effect (tied : Tied origin t.core) (bound : act.Bound origin)
    (effect : Effect suite now t act report c) : Tied origin c := by
  have forget (keep : Pair → Bool) (pair : Pair) (trio : Trio)
      (there : (t.core.held.filter fun pair _ => keep pair)[pair]? = some trio) :
      TiedTrio origin pair trio := by
    rw [ExtTreeMap.getElem?_filter', Option.filter_eq_some_iff] at there
    exact tied.held pair trio there.1
  have rows : LinkedRows origin c.vault.rows := by
    refine effect.rowsOf lasting_link tied.rows ?_ ?_ ?_
    · rintro link latency handshake current rfl - x mem
      rw [PeriodSecret.pair, link_of_mem_liveSecrets mem]
      exact bound
    · exact fun r plans x mem => (tied.linked_stored.of_created plans mem).1
    · exact fun r plans x mem => (tied.linked_held.of_created plans mem).1
  cases effect with
  | kept => exact tied
  | enrolling | starting | startRefused | rotating | transportUp | issued | recognized =>
    exact ⟨rows, tied.held⟩
  | enrolled at_now reached =>
    refine ⟨rows, fun pair trio there => ?_⟩
    rw [ExtTreeMap.getElem?_insert] at there
    split at there
    · rename_i same
      cases there
      obtain rfl := LawfulEqCmp.compare_eq_iff_eq.1 same
      exact tiedTrio_enrolled (Schedule.pos_of_periodAt at_now) bound rows
    · exact tied.held pair trio there
  | started plans => exact ⟨rows, fun _ _ there => tiedTrio_rolled tied.linked_stored plans there⟩
  | rotated quiet plans =>
    exact ⟨rows, fun _ _ there => tiedTrio_rolled tied.linked_held plans there⟩
  | contactGone | transportGone => exact ⟨rows, forget _⟩
  | stopped | restarted => exact ⟨rows, by simp⟩
  | replaced => exact bound.elim

/-! ## Listed and held secrets -/

/-- The directory lists the held secrets, and no others. -/
def Core.Mirrored (c : Core) : Prop :=
  ∀ id, id ∈ c.directory.listings ↔ ∃ x ∈ c.secrets, x.id = id

theorem mirrored_of_empty (held : c.held = ∅) (unlisted : c.directory.listings = ∅) :
    c.Mirrored := by
  intro id
  simp only [Core.secrets, held, unlisted, mem_heldSecrets]
  simp

/-- A reliable vault stays reliable. -/
theorem Effect.reliable (effect : Effect suite now t act report c) (reliable : t.core.Reliable) :
    c.Reliable := by
  cases effect with
  | transportGone reached => rcases reached with rfl | rfl <;> exact reliable
  | _ => exact reliable

section Enrolled

variable {link : Link} {current : Nat} {handshake : Key} {form : PeriodSecret → PeriodSecret}
  {id : PeriodId}

/-- An enrolled trio holds the derived secrets in their stored forms. -/
theorem holds_trioOf_iff (named : ∀ s, (form s).id = s.id) :
    (∃ turn x, (trioOf ((liveSecrets suite link current handshake).map form)).get turn = some x ∧
        x.id = id) ↔
      ∃ s ∈ liveSecrets suite link current handshake, s.id = id := by
  have all : (trioOf ((liveSecrets suite link current handshake).map form)).secrets =
      (liveSecrets suite link current handshake).map form := rfl
  rw [exists_comm]
  simp only [exists_and_right, ← Trio.mem_secrets, all, List.mem_map, exists_exists_and_eq_and, named]

/-- Enrolling lists what it comes to hold and takes off the directory what it holds no longer. -/
theorem Tied.mirrored_enrolled (tied : Tied origin t.core) (mirrored : t.core.Mirrored)
    (after : Tied origin c) (named : ∀ s, (form s).id = s.id)
    (held : c.held = t.core.held.insert link.toPair
      (trioOf ((liveSecrets suite link current handshake).map form)))
    (listed : c.directory = listAllIn suite ((liveSecrets suite link current handshake).map form)
      (unlistAllIn (staleIds t.keyring link.toPair (liveSecrets suite link current handshake))
        t.core.directory)) : c.Mirrored := by
  intro id
  rw [listed, listAllIn, unlistAllIn, Directory.mem_listings_addAll,
    Directory.mem_listings_removeAll, mirrored id, Core.secrets, Core.secrets, holds_iff tied.held,
    holds_iff after.held, held, mem_staleIds]
  simp only [List.mem_map, exists_exists_and_eq_and, named]
  by_cases own : link.toPair = id.toPair
  · -- Whatever was held of the pair is either derived again or stale.
    rw [own, ExtTreeMap.getElem?_insert_self]
    simp only [Option.some.injEq, exists_eq_left', holds_trioOf_iff named]
    refine or_iff_left_of_imp ?_
    rintro ⟨before, kept⟩
    by_contra absent
    exact kept ⟨before, fun s mem same => absent ⟨s, mem, same⟩⟩
  · have underived : ¬ ∃ s ∈ liveSecrets suite link current handshake, s.id = id := by
      rintro ⟨s, mem, rfl⟩
      exact own (congrArg Link.toPair (link_of_mem_liveSecrets mem)).symm
    have unstale (trio : Trio) (there : t.core.held[link.toPair]? = some trio) (turn : Turn)
        (x : PeriodSecret) (stands : trio.get turn = some x) : x.id ≠ id := by
      rintro rfl
      exact own ((tied.held _ trio there).pair_eq stands).symm
    rw [ExtTreeMap.getElem?_insert, if_neg (by simpa using own), or_iff_right underived]
    refine and_iff_left ?_
    rintro ⟨⟨trio, there, turn, x, stands, same⟩, -⟩
    exact unstale trio there turn x stands same

end Enrolled

/-- Giving up pairs and taking them off the directory leaves the directory mirrored. -/
theorem Tied.mirrored_filter (tied : Tied origin t.core) (mirrored : t.core.Mirrored)
    (after : Tied origin c) (gone : Pair → Bool)
    (held : c.held = t.core.held.filter fun pair _ => !gone pair)
    (listed : c.directory = t.core.directory.removeWhere fun id => gone id.toPair) : c.Mirrored := by
  intro id
  rw [listed, Directory.mem_listings_removeWhere, mirrored id, Core.secrets, Core.secrets,
    holds_iff tied.held, holds_iff after.held, held]
  simp only [ExtTreeMap.getElem?_filter', Option.filter_eq_some_iff, Bool.not_eq_true']
  constructor
  · rintro ⟨⟨trio, there, some_turn⟩, stays⟩
    exact ⟨trio, ⟨there, stays⟩, some_turn⟩
  · rintro ⟨trio, ⟨there, stays⟩, some_turn⟩
    exact ⟨⟨trio, there, some_turn⟩, stays⟩

/-- With a reliable vault and a directory that takes all secrets, every act leaves the directory
mirrored, but for a start that gives up a held secret. -/
theorem Tied.mirrored_effect (tied : Tied origin t.core) (bound : act.Bound origin)
    (reliable : t.core.Reliable) (unopposed : Unopposed t.core) (mirrored : t.core.Mirrored)
    (effect : Effect suite now t act report c) :
    c.Mirrored ↔
      (act = .start → report = .done → ∀ x ∈ t.core.secrets, ∃ y ∈ c.secrets, y.id = x.id) := by
  have after := tied.effect bound effect
  cases effect with
  | @started r plans =>
    have listed (id : PeriodId) :
        id ∈ (listAllIn suite (r.held.values.flatMap Trio.secrets) t.core.directory).listings ↔
          (∃ x ∈ r.held.values.flatMap Trio.secrets, x.id = id) ∨ id ∈ t.core.directory.listings :=
      Directory.mem_listings_addAll
    constructor
    · intro mirrored' _ _ x mem
      exact (mirrored' x.id).1 ((listed x.id).2 (.inr ((mirrored x.id).2 ⟨x, mem, rfl⟩)))
    · intro keeps id
      refine (listed id).trans (or_iff_left_of_imp fun before => ?_)
      obtain ⟨x, mem, rfl⟩ := (mirrored id).1 before
      exact keeps rfl rfl x mem
  | enrolled at_now reached offered =>
    obtain ⟨rfl, -⟩ := offered.of_willing unopposed.willing
    refine iff_of_true ?_ (by simp)
    exact tied.mirrored_enrolled mirrored after (id_storedForm _) rfl rfl
  | @rotated _ _ r taken refused quiet plans offered rolls =>
    obtain rfl := unopposed.taken_eq offered
    refine iff_of_true (fun id => ?_) fun start => by simp [start] at rolls
    rw [listAllIn, unlistAllIn, Directory.mem_listings_addAll,
      Directory.mem_listings_removeAll, mirrored id, Core.secrets, Core.secrets,
      tied.linked_held.holds_iff plans, or_comm]
    simp only [Rollover.summary, Rollover.sortIds, List.mem_mergeSort, Core.secrets]
    grind
  | @contactGone contact =>
    refine iff_of_true (tied.mirrored_filter mirrored after (·.contact = contact) ?_ rfl) (by simp)
    simp
  | @transportGone transport =>
    refine iff_of_true (tied.mirrored_filter mirrored after (·.transport = transport) ?_ rfl) (by simp)
    simp
  | @recognized _ listed _ _ _ recognizes =>
    obtain ⟨listing, entered, tag, there, -, -, -, rfl⟩ := recognizes.listed
    have mem : listed ∈ t.core.directory.listings := by
      rw [ExtTreeMap.mem_iff_isSome_getElem?, there, Option.isSome_some]
    exact iff_of_true (fun id => (Registry.mem_listings_advance mem).trans (mirrored id)) (by simp)
  | stopped | restarted => exact iff_of_true (mirrored_of_empty rfl rfl) (by simp)
  | enrolling at_now reached unreliable => exact absurd reliable unreliable
  | starting plans unreliable => exact absurd reliable unreliable
  | startRefused plans unwilling => exact absurd unopposed.willing unwilling
  | rotating plans reached unreliable => exact absurd reliable unreliable
  | replaced => exact bound.elim
  | kept => exact iff_of_true mirrored (by simp)
  | transportUp => exact iff_of_true mirrored (by simp)
  | issued => exact iff_of_true mirrored (by simp)

/-! ## Runs -/

/-- A keyring that was never started, at a post that stores no secrets. -/
theorem tied_stopped {settings : Settings} {serial : Nat} {post : Post}
    (blank : post.vault.vault.rows = ∅) :
    Tied origin (core ⟨.stopped settings serial, post⟩) where
  rows id s there := by simp [core, blank] at there
  held pair trio there := by simp [core, Keyring.stopped] at there

/-- The secret is not past its end at `now`, with the latencies that the keyring knows. -/
def Core.InForce (origin : Pair → Origin) (c : Core) (now : Nat) (id : PeriodId) : Prop :=
  ∃ latency, c.latencies[id.transport]? = some latency ∧
    (now : Int) < (Schedule.lifespan (origin id.toPair).epoch
      (Schedule.interval latency c.tolerance) id.period).destruction

/-- After a rollover no held secret is past its end. -/
theorem Tied.inForce_of_done (tied : Tied origin t.core) (rolls : act = .start ∨ act = .rotate)
    (effect : Effect suite now t act .done c) : ∀ x ∈ c.secrets, c.InForce origin now x.id := by
  have in_force {latencies : ExtTreeMap Transport Nat} {secrets : List PeriodSecret} {r : Rollover}
      (linked : Rollover.Linked origin secrets)
      (plans : Rollover.plan suite now latencies t.core.tolerance secrets = .ok r)
      {x : PeriodSecret} (mem : x ∈ r.held.values.flatMap Trio.secrets) :
      ∃ latency, latencies[x.id.transport]? = some latency ∧
        (now : Int) < (Schedule.lifespan (origin x.id.toPair).epoch
          (Schedule.interval latency t.core.tolerance) x.id.period).destruction := by
    obtain ⟨pair, trio, turn, there, stands⟩ := mem_heldSecrets.1 mem
    obtain ⟨link, -, live⟩ := linked.of_held plans
      (show (r.held[pair]?).bind (·.get turn) = some x by rw [there]; exact stands)
    have own : x.pair = pair := congrArg Link.toPair link
    rw [Rollover.stage?_eq (own ▸ link), Option.map_eq_some_iff] at live
    obtain ⟨latency, known, live⟩ := live
    exact ⟨latency, known, Schedule.lt_destruction_of_live live⟩
  cases effect with
  | started plans => exact fun x mem => in_force tied.linked_stored plans mem
  | rotated quiet plans => exact fun x mem => in_force tied.linked_held plans mem
  | enrolled => simp at rolls

/-- The directory mirrors the keyring throughout a run exactly if no start gives up a held secret. -/
theorem Tied.mirrored_log {acts : List (Nat × Act)} {s : Station} (tied : Tied origin s.core)
    (reliable : s.core.Reliable) (unopposed : Unopposed s.core) (mirrored : s.core.Mirrored)
    (bound : ∀ act ∈ acts, act.2.Bound origin) :
    (∀ e ∈ log suite acts s, e.after.core.Mirrored) ↔
      ∀ e ∈ log suite acts s, e.act.2 = .start → e.report = .done →
        ∀ x ∈ e.before.keyring.secrets, ∃ y ∈ e.after.keyring.secrets, y.id = x.id := by
  induction acts generalizing s with
  | nil => simp
  | cons act acts ih =>
    obtain ⟨own, others⟩ := List.forall_mem_cons.1 bound
    have effect : Effect suite act.1 (s.atTime act.1) act.2 _ _ := effect_perform act.1 act.2 s
    have tied' : Tied origin (s.atTime act.1).core := tied
    have first := tied'.mirrored_effect own reliable unopposed mirrored effect
    rw [log, log_cons, List.forall_mem_cons, List.forall_mem_cons]
    refine Iff.trans (and_congr_right fun mirrored' => ?_) (and_congr_left' first)
    exact ih (tied'.effect own effect) (Effect.reliable effect reliable)
      (Unopposed.effect effect unopposed) mirrored' others

/-- A keyring starts at a reliable vault that stores no secret, with a directory that lists none and
takes all, and enrolls one link for a pair. The directory mirrors the keyring after every act exactly
if every start goes on to hold the secrets that were enrolled before it. When it does after a start or
a rotation, no listed secret is past its end. -/
theorem mirrored_iff_starts_keep {settings : Settings} {serial : Nat} {post : Post}
    {acts : List (Nat × Act)} (blank : post.vault.vault.rows = ∅)
    (unlisted : post.directory.listings = ∅) (willing : ∀ call x, post.intake.verdict call x = none)
    (reliable : post.vault.Reliable) (bound : ∀ act ∈ acts, act.2.Bound origin) :
    let entries := log suite acts ⟨.stopped settings serial, post⟩
    ((∀ e ∈ entries, e.after.core.Mirrored) ↔
      ∀ e ∈ entries, e.act.2 = .start → e.report = .done →
        ∀ x ∈ e.before.keyring.secrets, ∃ y ∈ e.after.keyring.secrets, y.id = x.id) ∧
    ∀ e ∈ entries, e.after.core.Mirrored → e.act.2 = .start ∨ e.act.2 = .rotate →
      e.report = .done → ∀ id ∈ e.after.post.directory.listings,
        e.after.core.InForce origin e.act.1 id := by
  intro entries
  have tied : Tied origin (core ⟨.stopped settings serial, post⟩) := tied_stopped blank
  refine ⟨tied.mirrored_log reliable ⟨willing, rfl⟩ (mirrored_of_empty rfl unlisted) bound, ?_⟩
  intro e mem mirrored rolls done id listed
  have before : Tied origin e.before.core := by
    refine (invariant_of_log (fun s => Tied origin s.core) tied ?_ e mem).1
    intro e mem before
    obtain ⟨within, effect⟩ := effect_of_mem_log mem
    have at_time : Tied origin (e.before.atTime e.act.1).core := before
    exact at_time.effect (bound _ within) effect
  have at_time : Tied origin (e.before.atTime e.act.1).core := before
  obtain ⟨-, effect⟩ := effect_of_mem_log mem
  rw [done] at effect
  obtain ⟨x, held, rfl⟩ := (mirrored id).1 listed
  exact at_time.inForce_of_done rolls effect x held

/-- A keyring is started, enrolls a link, and rotates its secrets. -/
theorem mirrored_rotated :
    let post := Peer.postAt ⟨.setLatency "tcp" 20 .empty, .clear⟩ 0
    let acts := [(1000, .start), (2000, .enroll ⟨⟨1, "tcp"⟩, 0, .alice⟩ 20 .wiped),
      (5000000, .rotate)]
    ∀ e ∈ log .standard acts ⟨.stopped .standard 0, post⟩, e.after.core.Mirrored := by
  intro post acts
  refine (@mirrored_iff_starts_keep .standard (fun _ => ⟨0, .alice, .wiped⟩) .standard 0 post acts rfl
    rfl (fun _ _ => rfl) ⟨rfl, fun _ _ => rfl⟩ ?_).1.2 ?_
  · simp [acts, Act.Bound, Origin.link]
  · simp only [acts, log_cons, log_nil, List.forall_mem_cons]
    refine ⟨fun _ _ x held => ?_, by simp, by simp, by simp⟩
    obtain ⟨_, _, _, there, -⟩ := mem_heldSecrets.1 held
    simp [Keyring.stopped] at there

/-- The secrets of a link are enrolled, and they are long past when the keyring is started. -/
theorem not_mirrored_started_late :
    let post := Peer.postAt ⟨.setLatency "tcp" 20 .empty, .clear⟩ 0
    let acts := [(1000, .enroll ⟨⟨1, "tcp"⟩, 0, .alice⟩ 20 .wiped), (20000000, .start)]
    (∀ act ∈ acts, act.2.Bound fun _ => ⟨0, .alice, .wiped⟩) ∧
      ¬ ∀ e ∈ log bare acts ⟨.stopped .standard 0, post⟩, e.after.core.Mirrored := by
  intro post acts
  have left_over :
      ⟨⟨1, "tcp"⟩, 0⟩ ∈ (run bare acts ⟨.stopped .standard 0, post⟩).core.directory.listings ∧
        ¬ ∃ x ∈ (run bare acts ⟨.stopped .standard 0, post⟩).core.secrets,
          x.id = ⟨⟨1, "tcp"⟩, 0⟩ := by
    decide +kernel
  refine ⟨by simp [acts, Act.Bound, Origin.link], fun mirrored => ?_⟩
  simp only [acts, log_cons, log_nil, List.forall_mem_cons] at mirrored
  have last : (run bare acts ⟨.stopped .standard 0, post⟩).core.Mirrored := mirrored.2.1
  exact left_over.2 ((last _).1 left_over.1)

end Station

end SealedStream
