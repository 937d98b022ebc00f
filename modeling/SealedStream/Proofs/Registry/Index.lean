import SealedStream.Proofs.Index
import SealedStream.Proofs.Registry.Answers

/-!
# What a registry recognizes

A registry lists secrets, takes them out and recognizes tags while calls on its vault fail. As long as
the awaited streams have different tags, its directory stays exact: what it recognizes are the tags of
the awaited streams, and recognizing one moves nothing but the window of its secret.

## Main definitions

* `Registry.Announces` — a stream is announced, and what has changed with it.
* `Registry.Answers` — what comes of bytes, told by the awaited streams.

## Main statements

* `Registry.exact_step`, `Registry.exact_of_log` — one act, and a run, leave the directory exact.
* `Registry.answers_of_exact` — an exact directory recognizes the awaited streams.
* `Registry.indexed_and_answered` — both of a registry that starts with nothing listed.
-/

namespace SealedStream

open Std SealedStream.Action

namespace Registry

variable {suite : Suite} {r t : Registry} {bytes : Bytes} {answer : Except LookupFault (Option Ticket)}

/-- Some bytes are the tag of a stream that the secret `id` awaits, and the ticket is for this stream.
The stream is now seen by the window of the secret, and that window is stored if the secret is; all
else is as before. -/
structure Announces (suite : Suite) (bytes : Bytes) (r : Registry) (id : PeriodId) (ticket : Ticket)
    (t : Registry) : Prop where
  awaited : ∃ tag : Tag, tag.toList = bytes ∧ r.directory.Awaits suite id ticket.stream tag
  marked : ∃ l l' : Listing, r.directory.listings[id]? = some l ∧
    ticket = ⟨id.toPair, l.key, ticket.stream, l.link.side⟩ ∧
    l'.link = l.link ∧ l'.key = l.key ∧
    (∀ n, l'.window.Seen n ↔ l.window.Seen n ∨ n = ticket.stream) ∧
    (∀ other, t.directory.listings[other]? =
      if id = other then some l' else r.directory.listings[other]?) ∧
    t.vault.vault = { r.vault.vault with
      rows := Vault.withWindow id l'.window r.vault.vault.rows }

/-- What comes of bytes that a registry is asked to recognize. A stream is announced just if the bytes
are the tag of an awaited stream and the vault takes the window; otherwise nothing changes. -/
structure Answers (suite : Suite) (bytes : Bytes) (r : Registry)
    (answer : Except LookupFault (Option Ticket)) (t : Registry) : Prop where
  announces_iff : (∃ ticket, answer = .ok (some ticket)) ↔
    (∃ id n, ∃ tag : Tag, tag.toList = bytes ∧ r.directory.Awaits suite id n tag) ∧
      r.vault.Accepts .setWindow
  announced : ∀ ticket, answer = .ok (some ticket) → ∃ id, Announces suite bytes r id ticket t
  unchanged : (∀ ticket, answer ≠ .ok (some ticket)) →
    t.directory = r.directory ∧ t.vault.vault = r.vault.vault

/-- A stream that an exact directory recognizes was awaited. -/
theorem announces_of_recognizes {id : PeriodId} {ticket : Ticket} {window : SeenWindow}
    (ex : r.directory.Exact suite) (whole : r.directory.Whole)
    (recognizes : Recognizes suite bytes r.directory id ticket window t.directory)
    (changed : t.vault.vault = { r.vault.vault with
      rows := Vault.withWindow id window r.vault.vault.rows }) :
    Announces suite bytes r id ticket t := by
  obtain ⟨l, entered, tag, there, -, marks, ticket_eq, moved⟩ := recognizes.listed
  obtain ⟨own, eq, leads⟩ := Directory.lookup?_eq_some_iff.1 recognizes.lookup
  let tags := Directory.recordTags (Directory.tagsOf suite l.tagKey entered)
    (l.tags.erase ticket.stream)
  refine ⟨⟨own, eq, (ex.leads_iff own id _).1 leads⟩, l, { l with window, tags }, there, ?_, rfl, rfl,
    ?_, ?_, changed⟩
  · rw [← (ex.proper id l there).pair]
    exact ticket_eq
  · intro n
    exact SeenWindow.seen_of_mark?_iff marks (.inr (.inl (whole.listing there)))
  · intro other
    rw [moved, getElem?_listings_advance]

/-- An exact directory recognizes the tags of the streams it awaits. -/
theorem answers_of_exact (ex : r.directory.Exact suite) (whole : r.directory.Whole)
    (ends : (recognize suite bytes).Ends r answer t) : Answers suite bytes r answer t := by
  obtain ⟨-, ⟨kept, same, nothing, refused⟩ | ⟨id, ticket, window, rfl, accepts, recognizes, changed⟩⟩ :=
    recognize_cases ends
  · refine ⟨iff_of_false (fun ⟨ticket, ok⟩ => nothing ticket ok) ?_,
      fun ticket ok => absurd ok (nothing ticket), fun _ => ⟨same, kept⟩⟩
    rintro ⟨⟨id, n, tag, eq, awaits⟩, accepts⟩
    have lookup := Directory.lookup?_eq_some_iff.2 ⟨tag, eq, (ex.leads_iff tag id n).2 awaits⟩
    obtain ⟨l, there, mem, -⟩ := awaits
    obtain ⟨covers, fresh, -⟩ := SeenWindow.mem_unseen.1 mem
    exact SeenWindow.mark?_eq_none_iff.1 (refused accepts id n l lookup there) ⟨covers, fresh⟩
  · have announces := announces_of_recognizes ex whole recognizes changed
    refine ⟨iff_of_true ⟨ticket, rfl⟩ ⟨⟨id, ticket.stream, announces.awaited⟩, accepts⟩, ?_,
      fun nothing => absurd rfl (nothing ticket)⟩
    rintro _ ⟨⟩
    exact ⟨id, announces⟩

/-- A stream is no longer awaited once it was announced. -/
theorem Announces.not_awaits {id : PeriodId} {ticket : Ticket} {tag : Tag}
    (announces : Announces suite bytes r id ticket t) :
    ¬ t.directory.Awaits suite id ticket.stream tag := by
  obtain ⟨l, l', -, -, -, -, seen, moved, -⟩ := announces.marked
  rintro ⟨own, there, mem, -⟩
  rw [moved, if_pos rfl] at there
  obtain rfl := Option.some.inj there
  exact (SeenWindow.mem_unseen.1 mem).2.1 ((seen _).2 (.inr rfl))

/-- The tag of an awaited stream is announced with the secret that awaits it. -/
theorem Answers.announces_awaited {id : PeriodId} {l : Listing} {n : Nat} {tag : Tag}
    (answers : Answers suite tag.toList r answer t) (apart : TellApart (r.directory.Awaits suite))
    (listed : r.directory.listings[id]? = some l) (unseen : n ∈ l.window.unseen)
    (tag_eq : tag = suite.tag (suite.tagKey l.link.side.other l.key) n)
    (accepts : r.vault.Accepts .setWindow) :
    answer = .ok (some ⟨id.toPair, l.key, n, l.link.side⟩) ∧
      Announces suite tag.toList r id ⟨id.toPair, l.key, n, l.link.side⟩ t := by
  have awaits : r.directory.Awaits suite id n tag := ⟨l, listed, unseen, tag_eq⟩
  obtain ⟨ticket, rfl⟩ := answers.announces_iff.2 ⟨⟨id, n, tag, rfl, awaits⟩, accepts⟩
  obtain ⟨own, announces⟩ := answers.announced ticket rfl
  obtain ⟨tag', same, awaits'⟩ := announces.awaited
  obtain rfl := Vector.toList_inj.1 same
  obtain ⟨rfl, rfl⟩ := apart own ticket.stream id n tag' awaits' awaits
  obtain ⟨l', -, there, ticket_eq, -⟩ := announces.marked
  obtain rfl := Option.some.inj (listed.symm.trans there)
  exact ⟨by rw [← ticket_eq], by rw [← ticket_eq]; exact announces⟩

/-- Bytes that lead to no stream are recognized as none, and nothing changes. -/
theorem ends_recognize_of_unknown (unknown : r.directory.lookup? bytes = none) :
    (recognize suite bytes).Ends r (.ok none) r := by
  unfold recognize
  split
  · rename_i wide
    rw [Directory.lookup?, dif_pos wide] at unknown
    rw [ends_get_bind_iff]
    simp only [unknown, ends_pure_iff, and_self]
  · exact ends_pure_iff.2 ⟨rfl, rfl⟩

/-! ## Runs -/

variable {act : Act} {acts : List Act} {vault : GuardedVault}

/-- An act leaves the directory exact if the awaited streams are told apart afterwards. -/
theorem exact_step (ex : r.directory.Exact suite) (whole : r.directory.Whole)
    (whole' : (act.perform suite r).2.directory.Whole)
    (apart : TellApart ((act.perform suite r).2.directory.Awaits suite)) :
    (act.perform suite r).2.directory.Exact suite := by
  cases act with
  | recognize bytes =>
    have ends := ends_toExcept (Registry.recognize suite bytes) r
    simp only [Act.perform] at whole' apart ⊢
    generalize (Registry.recognize suite bytes).toExcept r = ended at ends whole' apart ⊢
    obtain ⟨-, ⟨-, same, -⟩ | ⟨id, ticket, window, -, -, recognizes, -⟩⟩ := recognize_cases ends
    · rw [same]
      exact ex
    · exact ex.recognizes recognizes whole whole' apart
  | list s => exact ex.add apart
  | unlist id => exact ex.removeAll [id]
  | unlistContact contact => exact ex.removeAll _
  | unlistTransport transport => exact ex.removeAll _
  | clear => exact Directory.exact_empty
  | update vault => exact ex

/-- The tag of an awaited stream is announced once. It is unknown afterwards if no stream that is awaited
then has it too. -/
theorem recognized_once {id : PeriodId} {l : Listing} {n : Nat} {tag : Tag}
    (ex : r.directory.Exact suite) (whole : r.directory.Whole)
    (listed : r.directory.listings[id]? = some l) (unseen : n ∈ l.window.unseen)
    (tag_eq : tag = suite.tag (suite.tagKey l.link.side.other l.key) n)
    (accepts : r.vault.Accepts .setWindow) (ends : (recognize suite tag.toList).Ends r answer t)
    (whole' : t.directory.Whole)
    (apart : TellApart fun id n tag =>
      r.directory.Awaits suite id n tag ∨ t.directory.Awaits suite id n tag) :
    answer = .ok (some ⟨id.toPair, l.key, n, l.link.side⟩) ∧
      (recognize suite tag.toList).Ends t (.ok none) t := by
  have before : TellApart (r.directory.Awaits suite) := apart.mono fun _ _ _ => .inl
  have later : TellApart (t.directory.Awaits suite) := apart.mono fun _ _ _ => .inr
  obtain ⟨answered, announces⟩ :=
    (answers_of_exact ex whole ends).announces_awaited before listed unseen tag_eq accepts
  have after : ((Act.recognize tag.toList).perform suite r).2 = t := congrArg Prod.snd ends
  have ex' : t.directory.Exact suite := by
    rw [← after] at later whole' ⊢
    exact exact_step ex whole whole' later
  refine ⟨answered, ends_recognize_of_unknown ?_⟩
  rw [Option.eq_none_iff_forall_ne_some]
  rintro ⟨other, m⟩ lookup
  obtain ⟨own, same, leads⟩ := Directory.lookup?_eq_some_iff.1 lookup
  obtain rfl := Vector.toList_inj.1 same
  have awaits := (ex'.leads_iff own other m).1 leads
  obtain ⟨rfl, rfl⟩ := apart other m id n own (.inr awaits) (.inl ⟨l, listed, unseen, tag_eq⟩)
  exact announces.not_awaits awaits

/-- A registry that starts with nothing listed has an exact directory at all times, if the awaited
streams are always told apart and no window comes near the greatest count. -/
theorem exact_of_log
    (apart : ∀ e ∈ log suite acts ⟨vault, .empty⟩, TellApart (e.after.directory.Awaits suite))
    (whole : ∀ e ∈ log suite acts ⟨vault, .empty⟩, e.after.directory.Whole) :
    ∀ e ∈ log suite acts ⟨vault, .empty⟩,
      (e.before.directory.Exact suite ∧ e.before.directory.Whole) ∧
        e.after.directory.Exact suite ∧ e.after.directory.Whole := by
  refine invariant_of_log (fun r : Registry => r.directory.Exact suite ∧ r.directory.Whole)
    ⟨Directory.exact_empty, Directory.whole_empty⟩ ?_
  rintro e mem ⟨ex, whole_before⟩
  have apart_after := apart e mem
  have whole_after := whole e mem
  rw [(of_mem_log mem).2.2] at apart_after whole_after ⊢
  exact ⟨exact_step ex whole_before whole_after apart_after, whole_after⟩

/-- Whatever is listed and taken out and whichever calls on the vault fail, the tags of a directory are
those of the streams that the listed windows may still take, one for each, and lead to them. Bytes are
recognized just if they are such a tag and the vault takes the window; then the ticket is for this
stream, and only its window moves. -/
theorem indexed_and_answered
    (apart : ∀ e ∈ log suite acts ⟨vault, .empty⟩, TellApart (e.after.directory.Awaits suite))
    (whole : ∀ e ∈ log suite acts ⟨vault, .empty⟩, e.after.directory.Whole) :
    ∀ e ∈ log suite acts ⟨vault, .empty⟩,
      (∀ (tag : Tag) (id : PeriodId) (n : Nat),
        e.after.directory.tags[tag]? = some (id, n) ↔ e.after.directory.Awaits suite id n tag) ∧
      e.after.directory.tags.size =
        (e.after.directory.listings.values.map (·.window.unseen.length)).sum ∧
      (∀ s, e.act = .list s → ∀ n ∈ s.incoming.unseen, e.after.directory.Awaits suite s.id n
        (suite.tag (suite.tagKey s.link.side.other s.key) n)) ∧
      ∀ bytes, e.act = .recognize bytes → ∃ answer,
        (recognize suite bytes).Ends e.before answer e.after ∧
          Answers suite bytes e.before answer e.after := by
  intro e mem
  obtain ⟨⟨ex, whole_before⟩, ex_after, -⟩ := exact_of_log apart whole e mem
  obtain ⟨-, -, after⟩ := of_mem_log mem
  refine ⟨ex_after.leads_iff, ex_after.size_tags, ?_, ?_⟩
  · intro s listed n unseen
    rw [after, listed]
    exact ⟨_, by rw [Act.perform, Directory.getElem?_listings_add, if_pos rfl], unseen, rfl⟩
  · intro bytes asked
    have ends := ends_toExcept (recognize suite bytes) e.before
    rw [after, asked]
    exact ⟨_, ends, answers_of_exact ex whole_before ends⟩

/-- A stream is recognized once the vault takes the window, and only once; the stream before it comes
later. -/
theorem indexed_and_answered_after_refusal :
    let s : PeriodSecret :=
      { PeriodSecret.fresh ⟨⟨1, "tcp"⟩, 0, .alice⟩ 0 .wiped with incoming := .ofParts 0 0x7FFFFFF0#32 }
    let tag (n : UInt8) : Bytes := 0 :: 2 :: n :: Bytes.zeros 13
    let refuseFirst : Gate VaultCall StoreFault :=
      ⟨0, fun call _ => if call = 0 then some (.backend "disk full") else none⟩
    let vault : GuardedVault := ⟨{ Vault.empty with rows := Vault.put ∅ s }, refuseFirst⟩
    let acts : List Act := [.list s, .recognize (tag 1), .recognize (tag 1), .recognize (tag 1),
      .recognize (tag 0), .unlistContact 1]
    let run := log bare acts ⟨vault, .empty⟩
    run.map (·.report) = [none, none, some (s.id, 1), none, some (s.id, 0), none] ∧
      run.map (·.after.directory.tags.size) = [5, 5, 4, 4, 5, 0] ∧
      ∀ e ∈ run, e.after.directory.tags.size =
        (e.after.directory.listings.values.map (·.window.unseen.length)).sum := by
  intro s tag refuseFirst vault acts run
  have reads : ∀ e ∈ run, ∀ x ∈ e.after.directory.awaited bare, (s.id, x.1[2].toNat) = x.2 := by
    decide +kernel
  have apart : ∀ e ∈ run, TellApart (e.after.directory.Awaits bare) := fun e mem =>
    Directory.tellApart_of_read (fun tag => (s.id, tag[2].toNat)) (reads e mem)
  refine ⟨by decide +kernel, by decide +kernel, fun e mem => ?_⟩
  exact (indexed_and_answered apart (by decide +kernel) e mem).2.1

end Registry

end SealedStream
