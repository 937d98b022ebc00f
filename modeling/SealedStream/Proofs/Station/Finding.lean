import SealedStream.Proofs.Station.Windows
import SealedStream.Proofs.Tags

/-!
# The directory finds the peer's streams

The listings of a station are those of genuine secrets. If the tags that the directory listed in the
course of a run are told apart, then it is complete after the run: it finds every stream of the peer
that a listed window may still take.

## Main definitions

* `Directory.Faithful` — a complete directory of genuine secrets.
* `Station.TagsApart` — no tag is listed of two streams in the course of a run.

## Main statements

* `Station.faithful_effect`, `Station.faithful_run` — the directory of a station is faithful.
-/

namespace SealedStream

open Std

variable {suite : Suite} {origin : Pair → Origin}

/-! ## Directories of genuine secrets -/

/-- The directory is complete. Its listings belong to the secrets that their identities fix, and list
the tags of the other side. -/
structure Directory.Faithful (suite : Suite) (origin : Pair → Origin) (d : Directory) : Prop
    extends d.Complete suite where
  genuine : ∀ (id : PeriodId) (l : Listing), d.listings[id]? = some l → l.Genuine suite origin id
  tagKey : ∀ (id : PeriodId) (l : Listing), d.listings[id]? = some l →
    l.tagKey = suite.tagKey l.link.side.other l.key

namespace Directory

variable {d : Directory}

theorem faithful_of_empty (unlisted : d.listings = ∅) : d.Faithful suite origin where
  tags id l stream tag there := by simp [unlisted] at there
  unseen id l stream there := by simp [unlisted] at there
  genuine id l there := by simp [unlisted] at there
  tagKey id l there := by simp [unlisted] at there

theorem lists_of_removeAll {ids : List PeriodId} {id : PeriodId} {n : Nat} {tag : Tag}
    (lists : (ids.foldl (fun d id => d.remove id) d).Lists id n tag) : d.Lists id n tag := by
  obtain ⟨l, there, listed⟩ := lists
  exact ⟨l, Station.listings_of_unlistAllIn there, listed⟩

namespace Faithful

variable (faithful : d.Faithful suite origin)
include faithful

theorem removeAll (ids : List PeriodId) :
    (ids.foldl (fun d id => d.remove id) d).Faithful suite origin where
  toComplete := faithful.toComplete.removeAll ids
  genuine id l there := faithful.genuine id l (Station.listings_of_unlistAllIn there)
  tagKey id l there := faithful.tagKey id l (Station.listings_of_unlistAllIn there)

theorem addAll {secrets : List PeriodSecret} (real : ∀ s ∈ secrets, s.Genuine suite origin)
    (named : ∀ x ∈ secrets, ∀ y ∈ secrets, x.id = y.id → x = y)
    (apart : TellApart fun id n tag =>
      d.Lists id n tag ∨ (secrets.foldl (fun d s => d.add suite s) d).Lists id n tag) :
    (secrets.foldl (fun d s => d.add suite s) d).Faithful suite origin where
  toComplete := faithful.toComplete.addAll named apart
  genuine id l there := by
    rcases Station.listings_of_listAllIn there with ⟨s, mem, rfl, rfl⟩ | before
    · exact (real s mem).listing
    · exact faithful.genuine id l before
  tagKey id l there := by
    rcases Station.listings_of_listAllIn there with ⟨s, mem, rfl, rfl⟩ | before
    · rfl
    · exact faithful.tagKey id l before

/-- Some secrets are taken out and others are listed. -/
theorem relist {ids : List PeriodId} {secrets : List PeriodSecret}
    (real : ∀ s ∈ secrets, s.Genuine suite origin)
    (named : ∀ x ∈ secrets, ∀ y ∈ secrets, x.id = y.id → x = y)
    (apart : TellApart fun id n tag => d.Lists id n tag ∨
      (Station.listAllIn suite secrets (Station.unlistAllIn ids d)).Lists id n tag) :
    (Station.listAllIn suite secrets (Station.unlistAllIn ids d)).Faithful suite origin := by
  refine (faithful.removeAll ids).addAll real named ?_
  exact apart.mono fun id n tag lists => lists.imp_left lists_of_removeAll

theorem recognizes {bytes : Bytes} {id : PeriodId} {ticket : Ticket} {window : SeenWindow}
    {d' : Directory} (recognizes : Registry.Recognizes suite bytes d id ticket window d')
    (apart : TellApart d'.Lists) : d'.Faithful suite origin := by
  obtain ⟨listing, entered, tag, there, leads, marks, -, rfl⟩ := recognizes.listed
  refine ⟨Registry.complete_advance faithful.toComplete there leads marks apart, ?_, ?_⟩
  · intro id' l there'
    rcases Registry.listings_of_advance there' with ⟨rfl, tags, rfl⟩ | before
    · exact ⟨(faithful.genuine _ listing there).link, (faithful.genuine _ listing there).key⟩
    · exact faithful.genuine id' l before
  · intro id' l there'
    rcases Registry.listings_of_advance there' with ⟨rfl, tags, rfl⟩ | before
    · exact faithful.tagKey _ listing there
    · exact faithful.tagKey id' l before

end Faithful

end Directory

namespace Station

variable {allowed : Transport → Nat → Prop} {now : Nat} {t : Station} {act : Act} {report : Report}
  {c : Core}

/-- What enrolling derives is held in its stored form. -/
theorem mem_enrolled {link : Link} {current : Nat} {handshake : Key}
    {form : PeriodSecret → PeriodSecret} {held : ExtTreeMap Pair Trio} {pair : Pair} {x : PeriodSecret}
    (mem : x ∈ (liveSecrets suite link current handshake).map form) :
    x ∈ (held.insert pair (trioOf ((liveSecrets suite link current handshake).map form))).values.flatMap
      Trio.secrets := by
  obtain ⟨turn, stands⟩ : ∃ turn,
      (trioOf ((liveSecrets suite link current handshake).map form)).get turn = some x :=
    Trio.mem_secrets.1 mem
  exact mem_heldSecrets.2 ⟨pair, _, turn, ExtTreeMap.getElem?_insert_self, stands⟩

/-- No act makes a directory miss what it lists, if all tags before and after it are told apart. -/
theorem faithful_effect (sound : Sound suite origin allowed t.core)
    (follows : act.Follows origin allowed) (fits : Fits origin t.core.tolerance allowed now)
    (unopposed : Unopposed t.core) (effect : Effect suite now t act report c)
    (apart : TellApart fun id n tag =>
      t.core.directory.Lists id n tag ∨ c.directory.Lists id n tag)
    (faithful : t.core.directory.Faithful suite origin) : c.directory.Faithful suite origin := by
  have after := sound.effect follows fits effect
  cases effect with
  | enrolled at_now reached offered =>
    obtain ⟨rfl, -⟩ := offered.of_willing unopposed.willing
    exact faithful.relist (fun s mem => after.genuine_held s (mem_enrolled mem))
      (fun x mem y mem' => after.distinct_held x (mem_enrolled mem) y (mem_enrolled mem')) apart
  | started plans => exact faithful.addAll after.genuine_held after.distinct_held apart
  | rotated quiet plans offered =>
    obtain rfl := unopposed.taken_eq offered
    have chained := chained_created (sound.planned_held fits plans)
    refine faithful.relist (fun s mem => ?_) (fun x mem y mem' same => ?_) apart
    · rw [chained s mem]
      exact PeriodSecret.genuine_ofChain ..
    · obtain ⟨pair, period⟩ := PeriodId.mk.inj same
      rw [chained x mem, chained y mem', show x.pair = y.pair from pair, period]
  | startRefused | stopped | restarted => exact Directory.faithful_of_empty rfl
  | rotating => exact faithful.removeAll _
  | contactGone => exact faithful.removeAll _
  | transportGone => exact faithful.removeAll _
  | recognized recognizes => exact faithful.recognizes recognizes (apart.mono fun _ _ _ => .inr)
  | _ => exact faithful

/-- The tags that the directory lists before and after each act of a run are told apart. -/
def TagsApart (suite : Suite) (acts : List (Nat × Act)) (s : Station) : Prop :=
  ∀ e ∈ log suite acts s, TellApart fun id n tag =>
    e.before.post.directory.Lists id n tag ∨ e.after.post.directory.Lists id n tag

/-- If the tags of a run are told apart, the directory is faithful after it. -/
theorem faithful_run {acts : List (Nat × Act)} {s : Station} (sound : Sound suite origin allowed s.core)
    (follows : ∀ act ∈ acts, act.2.Follows origin allowed)
    (fits : ∀ act ∈ acts, Fits origin s.core.tolerance allowed act.1) (unopposed : Unopposed s.core)
    (apart : TagsApart suite acts s) (faithful : s.post.directory.Faithful suite origin) :
    (s.run suite acts).post.directory.Faithful suite origin := by
  induction acts generalizing s with
  | nil => exact faithful
  | cons act acts ih =>
    rw [List.forall_mem_cons] at follows fits
    rw [TagsApart, log, log_cons, List.forall_mem_cons] at apart
    have sound' : Sound suite origin allowed (s.atTime act.1).core := sound
    have effect : Effect suite act.1 (s.atTime act.1) act.2 _ _ := effect_perform act.1 act.2 s
    refine ih (sound.perform follows.1 fits.1) follows.2 ?_ (Unopposed.effect effect unopposed)
      apart.2 (faithful_effect sound' follows.1 fits.1 unopposed effect apart.1 faithful)
    intro act' mem
    rw [effect.tolerance_eq]
    exact fits.2 act' mem

end Station

end SealedStream
