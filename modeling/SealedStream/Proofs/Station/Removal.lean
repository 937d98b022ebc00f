import SealedStream.Proofs.Bare
import SealedStream.Proofs.Index
import SealedStream.Proofs.Station.Mirror

/-!
# What a notice of removal takes away

A contact or a transport that is gone takes its pairs with it. Whatever a keyring derives, holds, stores
and lists is of pairs that it holds or stores already, so of the pairs that are gone there is nothing
again until a link of one of them is enrolled.

The directory gives up all tags that it listed for a secret when the secret goes. If one of them leads to
a secret of another pair by then, that secret stays listed, but its streams are found no more.

## Main definitions

* `Notice.Takes` — the pairs that a notice takes away.
* `Station.Core.Within` — all secrets of a station are of pairs with a property.
* `Station.Removed` — what a removal leaves of the vault, the keyring and the directory.

## Main statements

* `Station.Core.Within.effect` — no act but an enrollment brings secrets of other pairs.
* `Station.removal` — a removal takes away what it should, and nothing of it comes back.
-/

namespace SealedStream

open Std SealedStream.Action

/-- The pairs that are gone with a contact or a transport. -/
def Notice.Takes : Notice → Pair → Prop
  | .contactGone contact, pair => pair.contact = contact
  | .transportGone transport, pair => pair.transport = transport
  | .transportUp _ _, _ => False

instance (pair : Pair) : (notice : Notice) → Decidable (notice.Takes pair)
  | .contactGone contact => inferInstanceAs (Decidable (pair.contact = contact))
  | .transportGone transport => inferInstanceAs (Decidable (pair.transport = transport))
  | .transportUp _ _ => inferInstanceAs (Decidable False)

/-- The call on the vault by which a notice takes secrets away. -/
def Notice.call? : Notice → Option VaultCall
  | .contactGone _ => some .removeContact
  | .transportGone _ => some .removeTransport
  | .transportUp _ _ => none

variable {suite : Suite} {p q : Pair → Prop}

/-! ## Secrets of some pairs -/

namespace Directory

variable {d d' : Directory}

/-- All listings are of secrets of pairs with the property `p`, and hold their own tags. -/
structure Within (suite : Suite) (p : Pair → Prop) (d : Directory) : Prop extends d.Tidy where
  own_tags : ∀ (id : PeriodId) (l : Listing), d.listings[id]? = some l →
    ∀ (n : Nat) (tag : Tag), l.tags[n]? = some tag → tag = suite.tag l.tagKey n
  pairs : ∀ (id : PeriodId) (l : Listing), d.listings[id]? = some l →
    l.link.toPair = id.toPair ∧ p id.toPair

theorem within_empty : empty.Within suite p where
  lists tag id n leads := by simp [empty] at leads
  own_tags id l there := by simp at there
  pairs id l there := by simp at there

namespace Within

variable (within : d.Within suite p)
include within

/-- Fewer listings may be of fewer pairs. -/
theorem restrict (tidy : d'.Tidy) (sub : ∀ (id : PeriodId) (l : Listing),
    d'.listings[id]? = some l → d.listings[id]? = some l ∧ (p id.toPair → q id.toPair)) :
    d'.Within suite q where
  toTidy := tidy
  own_tags id l there := within.own_tags id l (sub id l there).1
  pairs id l there := (within.pairs id l (sub id l there).1).imp_right (sub id l there).2

theorem removeAll (ids : List PeriodId) :
    (ids.foldl (fun d id => d.remove id) d).Within suite p :=
  within.restrict (within.toTidy.removeAll ids) fun _ _ there =>
    ⟨Station.listings_of_unlistAllIn there, id⟩

theorem removeWhere {gone : PeriodId → Bool}
    (rest : ∀ id, gone id = false → p id.toPair → q id.toPair) :
    (d.removeWhere gone).Within suite q := by
  refine within.restrict (within.toTidy.removeAll _) fun id l there => ?_
  rw [getElem?_listings_removeWhere] at there
  split at there
  · cases there
  · rename_i stays
    exact ⟨there, rest id (by simpa using stays)⟩

theorem addAll {secrets : List PeriodSecret} (own : ∀ s ∈ secrets, p s.pair) :
    (secrets.foldl (fun d s => d.add suite s) d).Within suite p where
  toTidy := within.toTidy.addAll secrets
  own_tags id l there := by
    rcases Station.listings_of_listAllIn there with ⟨s, mem, rfl, rfl⟩ | before
    · exact fun n tag listed => (lists_ofSecret_iff.1 listed).2.symm
    · exact within.own_tags id l before
  pairs id l there := by
    rcases Station.listings_of_listAllIn there with ⟨s, mem, rfl, rfl⟩ | before
    · exact ⟨rfl, own s mem⟩
    · exact within.pairs id l before

theorem recognizes {bytes : Bytes} {id : PeriodId} {ticket : Ticket} {window : SeenWindow}
    (recognizes : Registry.Recognizes suite bytes d id ticket window d') : d'.Within suite p := by
  obtain ⟨listing, entered, tag, there, leads, -, -, rfl⟩ := recognizes.listed
  have own_tags := within.own_tags id listing there
  refine ⟨within.toTidy.advance there own_tags leads, ?_, ?_⟩
  · intro id' l there' n tag' listed
    rw [Registry.getElem?_listings_advance] at there'
    split at there'
    · cases there'
      rw [getElem?_recordTags, ExtTreeMap.getElem?_erase] at listed
      grind
    · exact within.own_tags id' l there' n tag' listed
  · intro id' l there'
    rcases Registry.listings_of_advance there' with ⟨rfl, tags, rfl⟩ | before
    · exact within.pairs _ listing there
    · exact within.pairs id' l before

end Within

end Directory

namespace Station

variable {now : Nat} {s t : Station} {act : Act} {report : Report} {c : Core}

/-- All secrets are kept under their own pairs, and these have the property `p`. -/
structure Core.Within (suite : Suite) (p : Pair → Prop) (c : Core) : Prop where
  rows : Vault.RowsOf (fun s => p s.pair) c.vault.rows
  held : ∀ (pair : Pair) (trio : Trio), c.held[pair]? = some trio →
    p pair ∧ ∀ x ∈ trio.secrets, x.pair = pair
  directory : c.directory.Within suite p

theorem within_stopped {settings : Settings} {serial : Nat} {post : Post}
    (rows : Vault.RowsOf (fun s => p s.pair) post.vault.vault.rows)
    (unlisted : post.directory = .empty) :
    (core ⟨.stopped settings serial, post⟩).Within suite p where
  rows := rows
  held := by simp [core, Keyring.stopped]
  directory := by
    rw [show (core ⟨.stopped settings serial, post⟩).directory = .empty from unlisted]
    exact Directory.within_empty

/-- The pairs that a report is about. -/
def Report.pairs : Report → List Pair
  | .opened id ticket | .answered id ticket => [id.toPair, ticket.toPair]
  | _ => []

theorem mem_of_get_trioOf {secrets : List PeriodSecret} {x : PeriodSecret}
    (mem : x ∈ (trioOf secrets).secrets) : x ∈ secrets := by
  obtain ⟨turn, stands⟩ := Trio.mem_secrets.1 mem
  cases turn <;> exact List.mem_of_getElem? stands

namespace Core.Within

variable (within : c.Within suite p)
include within

theorem pair_of_stored {x : PeriodSecret} (mem : x ∈ c.vault.rows.values) : p x.pair := by
  obtain ⟨id, there⟩ := mem_values.1 mem
  exact (within.rows id x there).2

theorem pair_of_held {x : PeriodSecret} (mem : x ∈ c.secrets) : p x.pair := by
  obtain ⟨pair, trio, turn, there, stands⟩ := mem_heldSecrets.1 mem
  obtain ⟨holds, own⟩ := within.held pair trio there
  rw [own x (Trio.mem_secrets.2 ⟨turn, stands⟩)]
  exact holds

/-- Pairs may be given up. -/
theorem restrict {c' : Core} (gone : Pair → Bool) (rest : ∀ pair, gone pair = false → p pair → q pair)
    (rows : Vault.RowsOf (fun s => q s.pair) c'.vault.rows)
    (held : c'.held = c.held.filter fun pair _ => !gone pair)
    (directory : c'.directory = c.directory.removeWhere fun id => gone id.toPair) :
    c'.Within suite q where
  rows := rows
  held pair trio there := by
    rw [held, ExtTreeMap.getElem?_filter', Option.filter_eq_some_iff] at there
    exact (within.held pair trio there.1).imp_left (rest pair (by simpa using there.2))
  directory := directory ▸ within.directory.removeWhere fun id => rest id.toPair

end Core.Within

section Rolled

variable {latencies : ExtTreeMap Transport Nat} {tolerance : Nat} {secrets : List PeriodSecret}
  {r : Rollover} (plans : Rollover.plan suite now latencies tolerance secrets = .ok r)
  (own : ∀ s ∈ secrets, p s.pair)
include plans own

theorem pair_of_rolled {pair : Pair} {trio : Trio} (there : r.held[pair]? = some trio) :
    p pair ∧ ∀ x ∈ trio.secrets, x.pair = pair := by
  obtain ⟨⟨s, mem, rfl⟩, same⟩ := Rollover.pair_of_held plans there
  exact ⟨own s mem, same⟩

theorem pair_of_mem_rolled {x : PeriodSecret} (mem : x ∈ r.held.values.flatMap Trio.secrets) :
    p x.pair := by
  obtain ⟨pair, trio, turn, there, stands⟩ := mem_heldSecrets.1 mem
  obtain ⟨holds, same⟩ := pair_of_rolled plans own there
  rw [same x (Trio.mem_secrets.2 ⟨turn, stands⟩)]
  exact holds

theorem pair_of_mem_derived {x : PeriodSecret} (mem : x ∈ r.created) : p x.pair := by
  obtain ⟨s, given, same⟩ := Rollover.pair_of_mem_created plans mem
  exact same ▸ own s given

end Rolled

/-- No act brings secrets of other pairs but the enrollment of a link. -/
theorem Core.Within.effect (within : s.core.Within suite p)
    (brings : ∀ link latency handshake, act = .enroll link latency handshake → p link.toPair)
    (effect : Effect suite now s act report c) : c.Within suite p := by
  have rows : Vault.RowsOf (fun s => p s.pair) c.vault.rows := by
    refine effect.rowsOf (fun _ _ _ => id) within.rows ?_ ?_ ?_
    · intro link latency handshake current enrolls _ x mem
      rw [PeriodSecret.pair, link_of_mem_liveSecrets mem]
      exact brings link latency handshake enrolls
    · exact fun r plans x mem => pair_of_mem_derived plans (fun _ => within.pair_of_stored) mem
    · exact fun r plans x mem => pair_of_mem_derived plans (fun _ => within.pair_of_held) mem
  cases effect with
  | kept => exact within
  | enrolling | starting => exact ⟨rows, within.held, within.directory⟩
  | @enrolled link latency current handshake rows' taken refused at_now reached offered =>
    have own := brings link latency handshake rfl
    have pair_of {x : PeriodSecret} (mem : x ∈ (liveSecrets suite link current handshake).map
        (storedForm rows'.values)) : x.pair = link.toPair := by
      obtain ⟨y, derived, rfl⟩ := List.mem_map.1 mem
      have named := congrArg PeriodId.toPair (id_storedForm rows'.values y)
      exact named.trans (congrArg Link.toPair (link_of_mem_liveSecrets derived))
    refine ⟨rows, ?_, (within.directory.removeAll _).addAll fun x mem => ?_⟩
    · intro pair trio there
      rw [ExtTreeMap.getElem?_insert] at there
      split at there
      · rename_i same
        obtain rfl := LawfulEqCmp.compare_eq_iff_eq.1 same
        cases there
        exact ⟨own, fun x mem => pair_of (mem_of_get_trioOf mem)⟩
      · exact within.held pair trio there
    · rw [pair_of ((offered.mem_iff x).2 (.inl mem))]
      exact own
  | startRefused => exact ⟨rows, within.held, Directory.within_empty⟩
  | started plans =>
    have own := fun (x : PeriodSecret) => within.pair_of_stored (x := x)
    exact ⟨rows, fun _ _ there => pair_of_rolled plans own there,
      within.directory.addAll fun x mem => pair_of_mem_rolled plans own mem⟩
  | stopped | restarted => exact ⟨rows, by simp, Directory.within_empty⟩
  | rotating => exact ⟨rows, within.held, within.directory.removeAll _⟩
  | rotated quiet plans offered =>
    have own := fun (x : PeriodSecret) => within.pair_of_held (x := x)
    refine ⟨rows, fun _ _ there => pair_of_rolled plans own there,
      (within.directory.removeAll _).addAll fun x mem => ?_⟩
    rcases List.mem_append.1 ((offered.mem_iff x).2 (.inl mem)) with waits | derived
    · exact pair_of_mem_rolled plans own (List.mem_filter.1 waits).1
    · exact pair_of_mem_derived plans own derived
  | @contactGone contact =>
    exact within.restrict (fun pair => pair.contact = contact) (fun _ _ => id) rows (by simp) rfl
  | transportUp => exact ⟨rows, within.held, within.directory⟩
  | @transportGone transport =>
    exact within.restrict (fun pair => pair.transport = transport) (fun _ _ => id) rows (by simp) rfl
  | issued => exact ⟨rows, within.held, within.directory⟩
  | recognized recognizes => exact ⟨rows, within.held, within.directory.recognizes recognizes⟩
  | replaced => exact ⟨rows, by simp, within.directory⟩

/-- Streams are opened and answered under the secrets that there are. -/
theorem Effect.pairs_of_report (effect : Effect suite now s act report c)
    (within : s.core.Within suite p) : ∀ pair ∈ report.pairs, p pair := by
  cases effect with
  | @issued pair current row held kept =>
    obtain ⟨trio, there, -⟩ := Option.bind_eq_some_iff.1 held
    simp [Report.pairs, (within.held pair trio there).1]
  | @recognized bytes id ticket window directory recognizes =>
    obtain ⟨listing, -, -, there, -, -, eq, -⟩ := recognizes.listed
    obtain ⟨own, holds⟩ := within.directory.pairs id listing there
    rw [Report.pairs, eq]
    simp [own, holds]
  | rotated quiet => rcases quiet with rfl | rfl <;> simp [Report.pairs]
  | _ => simp [Report.pairs]

/-! ## Removals -/

/-- A change that the vault accepts is made. -/
theorem tryVault_of_accepts {kind : VaultCall} {f : Vault → Vault}
    (accepts : s.post.vault.Accepts kind) :
    ∃ g, tryVault kind (do Vault.demandWritable; modify f) s = { s with post.vault := g } ∧
      g.gate.verdict = s.post.vault.gate.verdict ∧ g.vault = f s.post.vault.vault := by
  have ends := ends_toExcept (onVault kind (do Vault.demandWritable; modify f)) s
  obtain ⟨r, g, called, -, eq⟩ := ends_focus_iff.1 ends
  obtain ⟨gate, ⟨-, -, refused⟩ | changes⟩ := GuardedVault.call_cases called
  · exact absurd accepts refused
  rw [Vault.ends_demandWritable_bind_iff, if_pos accepts.1] at changes
  refine ⟨g, ?_, gate, (ends_modify_iff.1 changes).2⟩
  rw [← eq, tryVault, toExcept]
  cases onVault kind (do Vault.demandWritable; modify f) s <;> rfl

/-- What a removal leaves. Of the pairs that are gone nothing is held, stored or listed, and what is not
theirs stays, but for the tags that were listed for them. -/
structure Removed (notice : Notice) (c c' : Core) : Prop where
  rows : ∀ id : PeriodId, c'.vault.rows[id]? =
    if notice.Takes id.toPair then none else c.vault.rows[id]?
  held : ∀ pair : Pair, c'.held[pair]? = if notice.Takes pair then none else c.held[pair]?
  listings : ∀ id : PeriodId, c'.directory.listings[id]? =
    if notice.Takes id.toPair then none else c.directory.listings[id]?
  recorded : ∀ transport : Transport, c'.vault.latencies[transport]? =
    if notice = .transportGone transport then none else c.vault.latencies[transport]?
  latencies : ∀ transport : Transport, c'.latencies[transport]? =
    if notice = .transportGone transport then none else c.latencies[transport]?
  lost : ∀ tag, (∃ id : PeriodId, notice.Takes id.toPair ∧ ∃ n, c.directory.Lists id n tag) →
    c'.directory.tags[tag]? = none
  kept : ∀ tag, (∀ id : PeriodId, notice.Takes id.toPair → ∀ n, ¬ c.directory.Lists id n tag) →
    c'.directory.tags[tag]? = c.directory.tags[tag]?
  rest : c' = { c with
    vault := { c'.vault with writable := c.vault.writable }
    latencies := c'.latencies
    held := c'.held
    directory := c'.directory }

/-- Nothing is left of what the notice takes away if all is filtered by it. -/
theorem removed_of_filtered {notice : Notice} {c c' : Core}
    (rows : c'.vault.rows = c.vault.rows.filter fun id _ => ¬ notice.Takes id.toPair)
    (held : c'.held = c.held.filter fun pair _ => ¬ notice.Takes pair)
    (directory : c'.directory = c.directory.removeWhere fun id => notice.Takes id.toPair)
    (recorded : ∀ transport : Transport, c'.vault.latencies[transport]? =
      if notice = .transportGone transport then none else c.vault.latencies[transport]?)
    (latencies : ∀ transport : Transport, c'.latencies[transport]? =
      if notice = .transportGone transport then none else c.latencies[transport]?)
    (rest : c' = { c with
      vault := { c'.vault with writable := c.vault.writable }
      latencies := c'.latencies
      held := c'.held
      directory := c'.directory }) : Removed notice c c' where
  rows id := by rw [rows, getElem?_filter_not fun id : PeriodId => notice.Takes id.toPair]
  held pair := by rw [held, getElem?_filter_not notice.Takes]
  listings id := by simp only [directory, Directory.getElem?_listings_removeWhere, decide_eq_true_eq]
  recorded := recorded
  latencies := latencies
  lost tag gone := by
    rw [directory]
    exact Directory.getElem?_tags_removeWhere.1 (by simpa using gone)
  kept tag stays := by
    rw [directory]
    exact Directory.getElem?_tags_removeWhere.2 (by simpa using stays)
  rest := rest

/-- A removal that the vault accepts takes away just what it should, but for the tags. -/
theorem removed_of_accepts {notice : Notice} {kind : VaultCall} (calls : notice.call? = some kind)
    (accepts : s.post.vault.Accepts kind) : Removed notice s.core (s.react notice).core := by
  cases notice with
  | contactGone contact =>
    cases calls
    obtain ⟨g, eq, gate, changed⟩ := tryVault_of_accepts
      (f := fun v => { v with rows := v.rows.filter fun id _ => id.contact ≠ contact }) accepts
    simp only [react, Vault.removeContact, eq]
    refine removed_of_filtered ?_ ?_ ?_ ?_ ?_ ?_
    · exact congrArg Vault.rows changed
    · rfl
    · rfl
    · simp [core, changed]
    · simp [core]
    · simp only [core, gate, changed]
  | transportUp => cases calls
  | transportGone gone =>
    cases calls
    obtain ⟨g, eq, gate, changed⟩ := tryVault_of_accepts
      (f := fun v => { v with
        rows := v.rows.filter fun id _ => id.transport ≠ gone
        latencies := v.latencies.erase gone }) accepts
    simp only [react, Vault.removeTransport, eq]
    refine removed_of_filtered ?_ ?_ ?_ ?_ ?_ ?_
    · exact congrArg Vault.rows changed
    · rfl
    · rfl
    · simp [core, changed, ExtTreeMap.getElem?_erase]
    · simp [core, ExtTreeMap.getElem?_erase]
    · simp only [core, gate, changed]

section Removed

variable {notice : Notice} {c' : Core} (removed : Removed notice c c')
include removed

/-- After a removal all secrets are of other pairs. -/
theorem Removed.within
    (within : c.Within suite fun _ => True) (tidy : c'.directory.Tidy) :
    c'.Within suite fun pair => ¬ notice.Takes pair where
  rows id x there := by
    rw [removed.rows] at there
    obtain ⟨stays, there⟩ := Option.ite_none_left_eq_some.1 there
    obtain ⟨named, -⟩ := within.rows id x there
    have own : x.pair = id.toPair := congrArg PeriodId.toPair named
    refine ⟨named, ?_⟩
    rwa [← own] at stays
  held pair trio there := by
    rw [removed.held] at there
    obtain ⟨stays, there⟩ := Option.ite_none_left_eq_some.1 there
    exact ⟨stays, (within.held pair trio there).2⟩
  directory := within.directory.restrict tidy fun id l there => by
    rw [removed.listings] at there
    obtain ⟨stays, there⟩ := Option.ite_none_left_eq_some.1 there
    exact ⟨there, fun _ => stays⟩

/-- The tags of other pairs stay just if none of them was listed for a secret that goes. -/
theorem Removed.confined_iff :
    (∀ (tag : Tag) (id : PeriodId) (n : Nat), ¬ notice.Takes id.toPair →
        c.directory.tags[tag]? = some (id, n) → c'.directory.tags[tag]? = some (id, n)) ↔
      ∀ (tag : Tag) (id : PeriodId) (n : Nat), ¬ notice.Takes id.toPair →
        c.directory.tags[tag]? = some (id, n) →
          ∀ other : PeriodId, notice.Takes other.toPair → ∀ m, ¬ c.directory.Lists other m tag := by
  constructor
  · intro confined tag id n stays leads other gone m lists
    have kept := confined tag id n stays leads
    rw [removed.lost tag ⟨other, gone, m, lists⟩] at kept
    cases kept
  · intro apart tag id n stays leads
    rw [removed.kept tag (apart tag id n stays leads), leads]

end Removed

/-! ## Runs -/

/-- The act enrolls no link of a pair that the notice takes away. -/
def Act.Avoids (notice : Notice) : Act → Prop
  | .enroll link _ _ => ¬ notice.Takes link.toPair
  | _ => True

/-- What all acts of a run bring is of pairs with the property, and so are all secrets then. -/
theorem Core.Within.of_log {acts : List (Nat × Act)} (within : s.core.Within suite p)
    (brings : ∀ act ∈ acts, ∀ link latency handshake, act.2 = .enroll link latency handshake →
      p link.toPair) :
    ∀ e ∈ log suite acts s, e.before.core.Within suite p ∧ e.after.core.Within suite p := by
  refine invariant_of_log (fun s : Station => s.core.Within suite p) within ?_
  intro e mem within
  obtain ⟨mem, effect⟩ := effect_of_mem_log mem
  have before : (e.before.atTime e.act.1).core.Within suite p := within
  exact before.effect (brings e.act mem) effect

theorem Core.Within.run {acts : List (Nat × Act)} (within : s.core.Within suite p)
    (brings : ∀ act ∈ acts, ∀ link latency handshake, act.2 = .enroll link latency handshake →
      p link.toPair) : (s.run suite acts).core.Within suite p := by
  refine run_induction (fun s => s.core.Within suite p) ?_ within
  intro t now act mem within
  have before : (t.atTime now).core.Within suite p := within
  exact before.effect (brings _ mem) (effect_perform now act t)

/-- Whatever has happened to a station before, a removal that its vault accepts takes away the secrets of
the pairs that are gone, and the latency of the transport, from the keyring, the vault and the
directory, and nothing else. Only tags of other pairs may be lost: those that were listed for a secret
that goes as well. Whatever happens later and whichever calls fail, there is nothing of these pairs
again, and no ticket for one of them, until a link of such a pair is enrolled. -/
theorem removal {settings : Settings} {serial : Nat} {post : Post} {acts : List (Nat × Act)}
    {notice : Notice} {kind : VaultCall}
    (named : Vault.RowsOf (fun _ => True) post.vault.vault.rows)
    (unlisted : post.directory = .empty) (calls : notice.call? = some kind)
    (accepts : (run suite acts ⟨.stopped settings serial, post⟩).post.vault.Accepts kind) :
    let found := run suite acts ⟨.stopped settings serial, post⟩
    let left := (found.perform suite now (.react notice)).2
    Removed notice found.core left.core ∧ left.core.Within suite (fun pair => ¬ notice.Takes pair) ∧
      ((∀ (tag : Tag) (id : PeriodId) (n : Nat), ¬ notice.Takes id.toPair →
          found.post.directory.tags[tag]? = some (id, n) →
            left.post.directory.tags[tag]? = some (id, n)) ↔
        ∀ (tag : Tag) (id : PeriodId) (n : Nat), ¬ notice.Takes id.toPair →
          found.post.directory.tags[tag]? = some (id, n) →
            ∀ other : PeriodId, notice.Takes other.toPair →
              ∀ m, ¬ found.post.directory.Lists other m tag) ∧
      ∀ later : List (Nat × Act), (∀ act ∈ later, act.2.Avoids notice) →
        ∀ e ∈ log suite later left, e.after.core.Within suite (fun pair => ¬ notice.Takes pair) ∧
          ∀ pair ∈ e.report.pairs, ¬ notice.Takes pair := by
  intro found left
  have within : found.core.Within suite fun _ => True :=
    (within_stopped named unlisted).run fun _ _ _ _ _ _ => trivial
  have removed : Removed notice found.core left.core :=
    removed_of_accepts (s := found.atTime now) calls accepts
  have tidy : left.core.directory.Tidy :=
    (Core.Within.effect (s := found.atTime now) within (fun _ _ _ _ => trivial)
      (effect_perform now (.react notice) found)).directory.toTidy
  have others := removed.within within tidy
  refine ⟨removed, others, removed.confined_iff, fun later avoids e mem => ?_⟩
  have brings (act : Nat × Act) (mem : act ∈ later) (link : Link) (latency : Nat) (handshake : Key)
      (enrolls : act.2 = .enroll link latency handshake) : ¬ notice.Takes link.toPair := by
    have avoids := avoids act mem
    rwa [enrolls] at avoids
  obtain ⟨before, after⟩ := others.of_log brings e mem
  exact ⟨after, (effect_of_mem_log mem).2.pairs_of_report before⟩

/-- One of two contacts is gone. The keyring is started again, and the secrets of the other one are
brought up to date. -/
theorem removal_of_contact :
    let post := Peer.postAt ⟨.setLatency "tcp" 20 .empty, .clear⟩ 0
    let acts : List (Nat × Act) := [(0, .start), (1000, .enroll ⟨⟨1, "tcp"⟩, 0, .alice⟩ 20 .wiped),
      (1000, .enroll ⟨⟨2, "tcp"⟩, 0, .alice⟩ 20 (Key.wiped.set 5 1 (by decide)))]
    let later : List (Nat × Act) := [(2000, .stop), (4000000, .start), (4000000, .issue ⟨1, "tcp"⟩),
      (4000000, .issue ⟨2, "tcp"⟩)]
    let left := ((run bare acts ⟨.stopped .standard 0, post⟩).perform bare 2000
      (.react (.contactGone 1))).2
    let entries := log bare later left
    (entries.map fun e => (e.report.pairs, e.after.core.vault.rows.keys.map (·.contact))) =
        [([], [2, 2, 2]), ([], [2, 2, 2]), ([], [2, 2, 2]),
          ([⟨2, "tcp"⟩, ⟨2, "tcp"⟩], [2, 2, 2])] ∧
      ∀ e ∈ entries, ∀ pair ∈ e.report.pairs, pair.contact ≠ 1 := by
  intro post acts later left entries
  refine ⟨by decide +kernel, fun e mem => ?_⟩
  refine ((@removal bare 2000 .standard 0 post acts (.contactGone 1) .removeContact ?_ rfl rfl
    ⟨by decide +kernel, by decide +kernel⟩).2.2.2 later ?_ e mem).2
  · exact fun id s there => absurd there (by simp [post, Peer.postAt, Vault.setLatency, Vault.empty])
  · simp [later, Act.Avoids]

/-- A contact has the same handshake on two transports, so its secrets there have the same keys and
tags. When the first transport is gone, the secrets of the second one stay, and their streams are not
found any more. -/
theorem not_confined_shared_handshake :
    let post := Peer.postAt ⟨.setLatency "bt" 20 (.setLatency "tcp" 20 .empty), .clear⟩ 0
    let acts : List (Nat × Act) := [(0, .start), (1000, .enroll ⟨⟨1, "tcp"⟩, 0, .alice⟩ 20 .wiped),
      (1000, .enroll ⟨⟨1, "bt"⟩, 0, .alice⟩ 20 .wiped)]
    let tag : Bytes := 1 :: 2 :: Bytes.zeros 14
    let found := run bare acts ⟨.stopped .standard 0, post⟩
    let left := (found.perform bare 2000 (.react (.transportGone "tcp"))).2
    (found.perform bare 3000 (.recognize tag)).1 =
        .answered ⟨⟨1, "bt"⟩, 1⟩ ⟨⟨1, "bt"⟩, Key.wiped.set 0 1 (by decide), 0, .alice⟩ ∧
      (left.perform bare 3000 (.recognize tag)).1 = .nothing ∧
      left.post.directory.listings.keys =
        [⟨⟨1, "bt"⟩, 0⟩, ⟨⟨1, "bt"⟩, 1⟩, ⟨⟨1, "bt"⟩, 2⟩] ∧
      found.post.directory.tags.size = 96 ∧ left.post.directory.tags.size = 0 := by
  decide +kernel

end Station

end SealedStream
