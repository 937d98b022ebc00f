import SealedStream.Proofs.Bare
import SealedStream.Proofs.Station.Windows

/-!
# Streams that are answered twice

A directory may refuse a secret that it already lists. The listing stays, and streams are answered on
it, while the keyring keeps its copy of the secret to list it later. That copy does not learn of the
streams answered meanwhile, so once the secret is listed again they can be answered a second time.
Nothing else revives a stream, whichever secrets are refused and whichever calls on the vault fail.

## Main definitions

* `Report.answered?` — the stream of the peer that was answered.

## Main statements

* `Station.waits_of_answered_twice` — a stream is answered twice only if its secret waited.
-/

namespace SealedStream.Station

open Std

variable {suite : Suite} {origin : Pair → Origin}

/-- The identity of the secret and the number of the stream, if a stream of the peer was answered. -/
def Report.answered? : Report → Option (PeriodId × Nat)
  | .answered id ticket => some (id, ticket.stream)
  | _ => none

theorem Report.answered?_eq_some_iff {report : Report} {id : PeriodId} {stream : Nat} :
    report.answered? = some (id, stream) ↔
      ∃ ticket, report = .answered id ticket ∧ ticket.stream = stream := by
  cases report <;> simp [answered?, and_assoc]

/-- From a vault that stores no secret but the latencies of all transports, with a clock that does not
go back and no contact or transport removed: a stream below the greatest number is answered twice
only if its secret waited to be listed when it was answered first. So no stream is answered twice
unless the directory refuses a secret. -/
theorem waits_of_answered_twice {settings : Settings} {serial : Nat} {post : Post}
    {acts : List (Nat × Act)} (blank : post.vault.vault.rows = ∅)
    (unlisted : post.directory.listings = ∅)
    (positive : ∀ (transport : Transport) (latency : Nat),
      post.vault.vault.latencies[transport]? = some latency → 0 < latency)
    (regular : Regular origin post.vault.vault.latencies settings.tolerance acts) :
    let s : Station := ⟨.stopped settings serial, post⟩
    ((log suite acts s).Pairwise fun past e => ∀ id stream,
      past.report.answered? = some (id, stream) → e.report.answered? = some (id, stream) →
        stream < Count.top → id ∈ past.before.keyring.unlisted) ∧
    ((∀ call x, post.intake.verdict call x = none) →
      (∀ e ∈ log suite acts s, ∀ id stream,
        e.report.answered? = some (id, stream) → stream < Count.top) →
      ((reports suite acts s).filterMap Report.answered?).Nodup) := by
  intro s
  have steady : Steady suite origin post.vault.vault.latencies 0 s.core := steady_stopped blank
  have accounted : Accounted suite origin post.vault.vault.latencies 0 s.core :=
    accounted_stopped unlisted
  have positive := positive_of_latencies positive settings.tolerance
  have waits : (log suite acts s).Pairwise fun past e => ∀ id stream,
      past.report.answered? = some (id, stream) → e.report.answered? = some (id, stream) →
        stream < Count.top → id ∈ past.before.keyring.unlisted := by
    refine (regular.pairwise_log_answered positive steady rfl accounted).imp ?_
    intro past e differ id stream first second lt
    obtain ⟨ticket, made, rfl⟩ := Report.answered?_eq_some_iff.1 first
    obtain ⟨ticket', made', same⟩ := Report.answered?_eq_some_iff.1 second
    by_contra settled
    exact differ id ticket ticket' made settled made' lt same
  refine ⟨waits, ?_⟩
  intro willing far
  have unopposed : Unopposed s.core := ⟨willing, rfl⟩
  have differ : (log suite acts s).Pairwise fun past e =>
      ∀ answer, past.report.answered? = some answer → e.report.answered? ≠ some answer := by
    refine waits.imp_of_mem ?_
    rintro past e mem - waits ⟨id, stream⟩ first second
    have waits := waits id stream first second (far past mem id stream first)
    rw [show past.before.keyring.unlisted = ∅ from (unopposed.log past mem).none_waiting] at waits
    exact ExtTreeSet.not_mem_empty waits
  rw [reports_eq_map_log, List.filterMap_map]
  refine differ.filterMap _ ?_
  rintro past e differ answer made answer' made' rfl
  exact differ answer made made'

/-- The current secret of a link is listed, and refused when the link is enrolled again. It waits when a
stream is answered on the old listing, which is answered again once a rotation has listed the secret. -/
theorem waits_of_answered_twice_refused :
    let post : Post := { Peer.postAt ⟨.setLatency "tcp" 20 .empty, .clear⟩ 0 with
      intake := ⟨0, fun call _ => if call = 1 ∨ call = 7 then none else some .derivation⟩ }
    let tag : Bytes := 1 :: 2 :: Bytes.zeros 14
    let acts := [(1000, .enroll ⟨⟨1, "tcp"⟩, 0, .alice⟩ 20 .wiped),
      (2000, .enroll ⟨⟨1, "tcp"⟩, 0, .alice⟩ 20 .wiped), (3000, .recognize tag), (4000, .rotate),
      (5000, .recognize tag)]
    let entries := log bare acts ⟨.stopped .standard 0, post⟩
    let id : PeriodId := ⟨⟨1, "tcp"⟩, 1⟩
    ∃ past e, entries[2]? = some past ∧ past.report.answered? = some (id, 0) ∧
      entries[4]? = some e ∧ e.report.answered? = some (id, 0) ∧
      id ∈ past.before.keyring.unlisted := by
  intro post tag acts entries id
  have first : entries[2]?.bind (·.report.answered?) = some (id, 0) := by decide +kernel
  have second : entries[4]?.bind (·.report.answered?) = some (id, 0) := by decide +kernel
  have waits : entries.Pairwise _ :=
    (@waits_of_answered_twice bare (fun _ => ⟨0, .alice, .wiped⟩) .standard 0 post acts rfl rfl ?_
      ⟨?_, ?_, ?_, ?_⟩).1
  · -- Nothing more is read off the run.
    clear_value entries
    obtain ⟨past, there, answered⟩ := Option.bind_eq_some_iff.1 first
    obtain ⟨e, there', answered'⟩ := Option.bind_eq_some_iff.1 second
    refine ⟨past, e, there, answered, there', answered', ?_⟩
    obtain ⟨lt, rfl⟩ := List.getElem?_eq_some_iff.1 there
    obtain ⟨lt', rfl⟩ := List.getElem?_eq_some_iff.1 there'
    exact List.pairwise_iff_getElem.1 waits 2 4 lt lt' (by decide) id 0 answered answered'
      (by decide +kernel)
  · intro transport latency known
    obtain ⟨-, rfl⟩ := (@latencies_postAt_iff 0 ..).1 known
    decide
  · simp [acts]
  · simp [acts, post, Act.Follows, Origin.link, latencies_postAt_iff]
  · simp [acts, Act.Keeps]
  · simp only [acts, List.mem_cons, List.not_mem_nil, or_false, forall_eq_or_imp, forall_eq]
    refine ⟨?_, ?_, ?_, ?_, ?_⟩ <;> exact counted_of_lt (by decide)

/-- The directory lists the current secret of a link and refuses it when the link is enrolled again. A
stream is answered on the listing that is still there, and again after a rotation has listed the held
copy. -/
theorem not_nodup_answered_relisted :
    let post : Post := { Peer.postAt ⟨.setLatency "tcp" 20 .empty, .clear⟩ 0 with
      intake := ⟨0, fun call _ => if call = 1 ∨ call = 7 then none else some .derivation⟩ }
    let tag : Bytes := 1 :: 2 :: Bytes.zeros 14
    let acts := [(1000, .enroll ⟨⟨1, "tcp"⟩, 0, .alice⟩ 20 .wiped),
      (2000, .enroll ⟨⟨1, "tcp"⟩, 0, .alice⟩ 20 .wiped), (3000, .recognize tag), (4000, .rotate),
      (5000, .recognize tag)]
    Regular (fun _ => ⟨0, .alice, .wiped⟩) post.vault.vault.latencies 3600000 acts ∧
      ¬ ((reports bare acts ⟨.stopped .standard 0, post⟩).filterMap Report.answered?).Nodup := by
  refine ⟨⟨?_, ?_, ?_, ?_⟩, by decide +kernel⟩
  · simp
  · simp [Act.Follows, Origin.link, latencies_postAt_iff]
  · simp [Act.Keeps]
  · simp only [List.mem_cons, List.not_mem_nil, or_false, forall_eq_or_imp, forall_eq]
    refine ⟨?_, ?_, ?_, ?_, ?_⟩ <;> exact counted_of_lt (by decide)

end SealedStream.Station
