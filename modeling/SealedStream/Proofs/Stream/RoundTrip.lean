import SealedStream.Proofs.Bare
import SealedStream.Proofs.Registry.Index
import SealedStream.Proofs.Stream.Exchange
import SealedStream.Proofs.Stream.Submitting

/-!
# A stream from one peer to the other

A sender writes the tag of its stream and then the frames. The registry of the other peer finds the
secret by the tag, and the receiver that it gives tells just the payloads that were written. The tag is
unknown from then on.

This needs that something was written at all. A single frame that is accepted without a trace is none, be it
empty, or so long that the low bits of its length make it pass for an empty one.

## Main statements

* `Receiver.ends_accept_iff` — a stream is accepted by its tag.
* `Sender.wrote_of_opening` — what is written on a stream of our own.
* `Receiver.round_trip` — a stream is accepted and read by the other peer, and only once.
-/

namespace SealedStream

open SealedStream.Action

variable {suite : Suite}

/-! ## Writing -/

namespace Sender

variable {s t : Sender} {front : List Sheet} {final : Sheet}

/-- Sheets of which just the final one is flagged as the last make a sequence of frames. -/
theorem sequence_mapIdx {number : Nat} (pending : ∀ x ∈ front, x.last = false)
    (last : final.last = true) : Frame.Sequence number
      ((front ++ [final]).mapIdx fun i x => ⟨number + i, x.payload, x.last⟩) := by
  induction front generalizing number with
  | nil => exact ⟨rfl, if_pos last ▸ rfl⟩
  | cons x front ih =>
    obtain ⟨first, pending⟩ := List.forall_mem_cons.1 pending
    rw [List.cons_append, List.mapIdx_cons]
    refine ⟨rfl, ?_⟩
    rw [if_neg (by simp [first])]
    have rest : Frame.Sequence (number + 1) _ := ih pending
    simpa only [Nat.add_assoc, Nat.add_comm 1] using rest

/-- What a sender writes on a stream of its own are the tag and the frames, as long as they are not a
single empty one. -/
theorem wrote_of_opening {ticket : Ticket} {capacity frameLength : Nat} {sink : Sink}
    (begins : opening suite ticket capacity frameLength sink = .ok s)
    (pending : ∀ x ∈ front, x.last = false) (shown : front ≠ [] ∨ ¬ final.Blank)
    (writes : (writeAll suite (front ++ [final])).Ends s (.ok ()) t) :
    let key := suite.frameKey ticket.side ticket.stream ticket.key
    let frames := framesOf suite key 0 (front ++ [final])
    t.sink.taken = sink.taken ++
      ((suite.tag (suite.tagKey ticket.side ticket.key) ticket.stream).toList ++ frames) ∧
      frames.length + 16 ≤ capacity ∧ ∀ x ∈ front ++ [final], x.Suits frameLength := by
  intro key frames
  obtain ⟨-, enough, rfl⟩ := opening_eq_ok_iff.1 begins
  have trace : ∀ x ∈ (front ++ [final]).head?, ¬ x.Blank := by
    intro x first
    cases front with
    | nil =>
      obtain rfl : final = x := by simpa using first
      exact shown.resolve_left fun none => none rfl
    | cons y front =>
      obtain rfl : y = x := by simpa using first
      exact fun blank => absurd blank.1 (by simp [pending y List.mem_cons_self])
  have wrote := wrote_of_writeAll rfl (.inr trace) writes
  have left := wrote.capacity
  refine ⟨by simpa using wrote.taken, ?_, wrote.suits⟩
  rw [length_framesOf]
  dsimp only at left
  omega

end Sender

/-! ## Reading -/

namespace Receiver

variable {source : Source} {frameLength : Nat} {r r' : Registry}

/-- How a stream is accepted whose tag, the first 16 bytes of the source, was looked up with this
result. -/
def answered (suite : Suite) (source : Source) (frameLength : Nat) :
    Except LookupFault (Option Ticket) → Except StreamFault Receiver
  | .error fault => .error (StreamFault.ofLookup fault)
  | .ok none => .error .unknownTag
  | .ok (some ticket) => .ok ⟨source.after 16, .ofTicket suite ticket, 0, frameLength,
      ticket.toPair, ticket.stream, false⟩

/-- A stream is accepted if its tag is recognized. -/
theorem ends_accept_iff {answer : Except StreamFault Receiver}
    (valid : demandFrameLength frameLength = .ok ()) (enough : 16 ≤ source.rest.length) :
    (accept suite source frameLength).Ends r answer r' ↔
      ∃ found, (Registry.recognize suite (source.rest.take 16)).Ends r found r' ∧
        answer = answered suite source frameLength found := by
  have tag : Source.exactly 16 source = .ok (source.rest.take 16) (source.after 16) := by
    have ends := Source.ends_exactly_ok_iff.2 ⟨enough, rfl, rfl⟩
    unfold Ends toExcept at ends
    cases read : Source.exactly 16 source <;> simp_all
  have ticketed (ticket : Ticket) : ofTicket suite (source.after 16) ticket frameLength =
      answered suite source frameLength (.ok (some ticket)) := ofTicket_eq_ok_iff.2 ⟨valid, rfl⟩
  rw [accept, valid, tag]
  refine ends_pure_bind_iff.trans (ends_bind_iff.trans ?_)
  simp only [ends_focus_iff, id]
  constructor
  · rintro (⟨fault, ⟨found, _, ends, named, rfl⟩, rfl⟩ | ⟨ticket?, _, ⟨found, _, ends, named, rfl⟩, rest⟩)
    · cases found with
      | error fault =>
        cases named
        exact ⟨_, ends, rfl⟩
      | ok ticket? => cases named
    · cases found with
      | error fault => cases named
      | ok _ =>
        cases named
        cases ticket? with
        | none =>
          obtain ⟨rfl, rfl⟩ := ends_throw_iff.1 rest
          exact ⟨_, ends, rfl⟩
        | some ticket =>
          obtain ⟨rfl, rfl⟩ := ends_ofExcept_iff.1 rest
          exact ⟨_, ends, ticketed ticket⟩
  · rintro ⟨found, ends, rfl⟩
    obtain fault | _ | ticket := found
    · exact .inl ⟨_, ⟨_, _, ends, rfl, rfl⟩, rfl⟩
    · exact .inr ⟨_, _, ⟨_, _, ends, rfl, rfl⟩, ends_throw_iff.2 ⟨rfl, rfl⟩⟩
    · exact .inr ⟨_, _, ⟨_, _, ends, rfl, rfl⟩,
        ends_ofExcept_iff.2 ⟨(ticketed ticket).symm, rfl⟩⟩

/-- A read that gives no frame changes nothing. -/
theorem eq_of_ends_next_none {r r' : Receiver} (ends : (next suite).Ends r (.ok none) r') : r' = r := by
  simp only [next, ends_get_bind_iff] at ends
  by_cases wiped : r.opener.Wiped
  · rw [if_pos wiped] at ends
    cases (ends_throw_bind_iff.1 ends).1
  rw [if_neg wiped] at ends
  by_cases finished : r.finished = true
  · rw [if_pos finished] at ends
    exact (ends_pure_iff.1 ends).2
  · rw [if_neg finished] at ends
    simp only [ends_bind_ok_iff, ends_pure_iff] at ends
    obtain ⟨_, _, -, _, _, -, given, -⟩ := ends
    cases given

/-- Once all frames were delivered, every further read gives none. -/
theorem Delivers.reads {r : Receiver} {fs : List Frame} (delivers : r.Delivers suite fs) (n : Nat) :
    r.reads suite (fs.length + n) =
      fs.map (fun f => (.ok (some f), f.last)) ++ List.replicate n (.ok none, true) := by
  induction fs generalizing r with
  | nil =>
    obtain ⟨r', ends, finished⟩ := delivers_nil_iff.1 delivers
    obtain rfl := eq_of_ends_next_none ends
    rw [List.length_nil, Nat.zero_add, List.map_nil, List.nil_append]
    induction n with
    | zero => rfl
    | succ n ih => rw [reads_succ ends, ih, finished, List.replicate_succ]
  | cons f fs ih =>
    obtain ⟨r', ends, finished, rest⟩ := delivers_cons_iff.1 delivers
    rw [List.length_cons, Nat.add_right_comm, reads_succ ends, ih rest, finished, List.map_cons,
      List.cons_append]

/-! ## Both sides -/

section

variable {ticket : Ticket} {capacity : Nat} {sink : Sink} {s t : Sender} {front : List Sender.Sheet}
  {final : Sender.Sheet}

/-- What was written on a stream of our own begins with the tag, and a receiver of the other side, with
the same secret and stream, delivers the frames after it. -/
theorem delivers_of_opening (ticket' : Ticket)
    (begins : Sender.opening suite ticket capacity frameLength sink = .ok s)
    (count : capacity ≤ Count.top) (pending : ∀ x ∈ front, x.last = false) (last : final.last = true)
    (shown : front ≠ [] ∨ ¬ final.Blank)
    (writes : (Sender.writeAll suite (front ++ [final])).Ends s (.ok ()) t)
    (written : t.sink.taken = sink.taken ++ source.rest) (unbroken : source.broken = none)
    (key : ticket'.key = ticket.key) (stream : ticket'.stream = ticket.stream)
    (side : ticket'.side = ticket.side.other) :
    demandFrameLength frameLength = .ok () ∧ 16 ≤ source.rest.length ∧
      source.rest.take 16 =
        (suite.tag (suite.tagKey ticket.side ticket.key) ticket.stream).toList ∧
      Delivers suite ((front ++ [final]).mapIdx fun i x => ⟨i, x.payload, x.last⟩)
        ⟨source.after 16, .ofTicket suite ticket', 0, frameLength, ticket'.toPair, ticket'.stream,
          false⟩ := by
  obtain ⟨taken, fits, suits⟩ := Sender.wrote_of_opening begins pending shown writes
  let key' := suite.frameKey ticket.side ticket.stream ticket.key
  let r : Receiver := ⟨source.after 16, .ofTicket suite ticket', 0, frameLength, ticket'.toPair,
    ticket'.stream, false⟩
  have demand := (Sender.opening_eq_ok_iff.1 begins).1
  obtain ⟨long, short⟩ := demandFrameLength_eq_ok_iff.1 demand
  have rest := List.append_cancel_left (written.symm.trans taken)
  have tag : source.rest.take 16 =
      (suite.tag (suite.tagKey ticket.side ticket.key) ticket.stream).toList := by
    rw [rest]
    exact List.take_left' (Vector.length_toList ..)
  have body : r.source.rest = Sender.framesOf suite key' 0 (front ++ [final]) := by
    rw [Source.rest_after, rest]
    exact List.drop_left' (Vector.length_toList ..)
  have ready : r.Ready key' := ready_ofTicket unbroken key stream side
  have room : Frame.minLength * r.number + r.source.rest.length ≤ Count.top := by
    rw [body, show r.number = 0 from rfl, Nat.mul_zero, Nat.zero_add]
    exact (Nat.le_of_add_right_le fits).trans count
  refine ⟨demand, ?_, tag, (delivers_iff_spells ready rfl long short room).2 ?_⟩
  · rw [rest, List.length_append, Vector.length_toList]
    exact Nat.le_add_right _ _
  · rw [body]
    refine Sender.spells_framesOf ?_ ?_ suits
    · have sequence : Frame.Sequence 0 _ := Sender.sequence_mapIdx pending last
      simpa only [Nat.zero_add] using sequence
    · exact List.ext_getElem (by simp) fun i _ _ => by simp only [List.getElem_map, List.getElem_mapIdx]

/-- The submissions that a sender of a stream of our own accepts are all written, unless there is a single
one that leaves no trace. -/
theorem writes_of_submits {o : Overflow} (pending : ∀ x ∈ front, x.last = false)
    (begins : Sender.opening suite ticket capacity frameLength sink = .ok s)
    (shown : front ≠ [] ∨ ¬ final.Traceless o)
    (submits : Sender.submitAll o suite (front ++ [final]) s = some t) :
    (Sender.writeAll suite (front ++ [final])).Ends s (.ok ()) t := by
  refine Sender.writeAll_of_submitAll ?_ (.inr fun x first => ?_) submits
  · rw [Sender.of_opening begins]
    simp [Sender.Wiped]
  · cases front with
    | nil =>
      obtain rfl : final = x := by simpa using first
      exact shown.resolve_left fun none => none rfl
    | cons y front =>
      obtain rfl : y = x := by simpa using first
      exact fun traceless => absurd traceless.1 (by simp [pending y List.mem_cons_self])

/-- A stream of which all frames were accepted is accepted by any registry of the other peer that awaits
it, and the receiver gives the payloads in order, and then no more. The same bytes are not accepted again.
Excepted is just a single last frame that leaves no trace. If the program stops at a frame that is too long,
that is an empty one. -/
theorem round_trip {o : Overflow} {acts : List Registry.Act} {vault : GuardedVault}
    {e : Log.Entry Registry Registry.Act (Option (PeriodId × Nat))} {id : PeriodId} {l : Listing}
    (begins : Sender.opening suite ticket capacity frameLength sink = .ok s)
    (count : capacity ≤ Count.top) (pending : ∀ x ∈ front, x.last = false) (last : final.last = true)
    (shown : front ≠ [] ∨ ¬ final.Traceless o)
    (submits : Sender.submitAll o suite (front ++ [final]) s = some t)
    (written : t.sink.taken = sink.taken ++ source.rest) (unbroken : source.broken = none)
    (apart : ∀ e ∈ Registry.log suite acts ⟨vault, .empty⟩,
      TellApart (e.after.directory.Awaits suite))
    (whole : ∀ e ∈ Registry.log suite acts ⟨vault, .empty⟩, e.after.directory.Whole)
    (reached : e ∈ Registry.log suite acts ⟨vault, .empty⟩)
    (listed : e.after.directory.listings[id]? = some l) (key : l.key = ticket.key)
    (side : l.link.side = ticket.side.other) (unseen : ticket.stream ∈ l.window.unseen)
    (accepts : e.after.vault.Accepts .setWindow)
    (after : ((accept suite source frameLength).toExcept e.after).2 = r')
    (whole' : r'.directory.Whole)
    (apart' : TellApart fun id n tag =>
      e.after.directory.Awaits suite id n tag ∨ r'.directory.Awaits suite id n tag) :
    (o = .stops → (final.Traceless o ↔ final.Blank)) ∧
    (∃ receiver : Receiver, (accept suite source frameLength).Ends e.after (.ok receiver) r' ∧
      receiver.pair = id.toPair ∧ receiver.stream = ticket.stream ∧
      ∀ n, receiver.reads suite ((front ++ [final]).length + n) =
        (front ++ [final]).mapIdx (fun i x => (.ok (some ⟨i, x.payload, x.last⟩), x.last)) ++
          List.replicate n (.ok none, true)) ∧
      ∀ again : Source, again.rest = source.rest →
        (accept suite again frameLength).Ends r' (.error .unknownTag) r' := by
  let answer : Ticket := ⟨id.toPair, l.key, ticket.stream, l.link.side⟩
  have shown' : front ≠ [] ∨ ¬ final.Blank := shown.imp_right fun shown blank => shown blank.traceless
  have writes := writes_of_submits pending begins shown submits
  obtain ⟨demand, enough, tag, delivers⟩ := delivers_of_opening answer begins count pending
    last shown' writes written unbroken key rfl side
  obtain ⟨-, ex, whole_after⟩ := Registry.exact_of_log apart whole e reached
  have accepted := ends_toExcept (accept suite source frameLength) e.after
  rw [after, ends_accept_iff demand enough, tag] at accepted
  obtain ⟨found, recognized, answered⟩ := accepted
  have tag_eq : suite.tag (suite.tagKey ticket.side ticket.key) ticket.stream =
      suite.tag (suite.tagKey l.link.side.other l.key) ticket.stream := by
    rw [side, Side.other_other, key]
  obtain ⟨rfl, unknown⟩ := Registry.recognized_once ex whole_after listed unseen tag_eq accepts
    recognized whole' apart'
  refine ⟨fun stops => stops ▸ Sender.Sheet.traceless_stops_iff,
    ⟨_, (ends_accept_iff demand enough).2 ⟨_, tag ▸ recognized, rfl⟩, rfl, rfl, fun n => ?_⟩, ?_⟩
  · have reads := delivers.reads n
    rw [List.length_mapIdx] at reads
    rw [reads]
    congr 1
    exact List.ext_getElem (by simp) fun i _ _ => by simp only [List.getElem_map, List.getElem_mapIdx]
  · intro again same
    rw [ends_accept_iff demand (same ▸ enough), same, tag]
    exact ⟨_, unknown, rfl⟩

end

/-- Two frames that arrive in pieces are read by the other peer, and then no more; a second time their
tag is unknown. -/
theorem round_trip_of_two_frames :
    let secret : PeriodSecret := PeriodSecret.fresh ⟨⟨1, "tcp"⟩, 0, .alice⟩ 0 .wiped
    let vault : GuardedVault := ⟨{ Vault.empty with rows := Vault.put ∅ secret }, .clear⟩
    let r := ((Registry.Act.list secret).perform bare ⟨vault, .empty⟩).2
    let ticket : Ticket := ⟨⟨7, "tcp"⟩, .wiped, 5, .bob⟩
    let front : List Sender.Sheet := [⟨[1, 2], 2, false⟩]
    let final : Sender.Sheet := ⟨[3], 0, true⟩
    let s : Sender := ⟨some (bare.frameKey .bob 5 .wiped), some (bare.tag (bare.tagKey .bob .wiped) 5),
      40, 0, 84, .unlimited⟩
    let t := ((Sender.submitAll .stops bare (front ++ [final]) s).getD s)
    let source : Source := ⟨[t.sink.taken.take 20, t.sink.taken.drop 20], none⟩
    Sender.opening bare ticket 100 40 .unlimited = .ok s ∧
      Sender.submitAll .stops bare (front ++ [final]) s = some t ∧
      ∃ (receiver : Receiver) (r' : Registry),
        (accept bare source 40).Ends r (.ok receiver) r' ∧ receiver.pair = secret.pair ∧
          receiver.reads bare 4 = [(.ok (some ⟨0, [1, 2], false⟩), false),
            (.ok (some ⟨1, [3], true⟩), true), (.ok none, true), (.ok none, true)] ∧
          (accept bare source 40).Ends r' (.error .unknownTag) r' := by
  intro secret vault r ticket front final s t source
  let run := Registry.log bare [.list secret] ⟨vault, .empty⟩
  let r' := ((accept bare source 40).toExcept r).2
  let read (tag : Tag) : PeriodId × Nat := (secret.id, tag[2].toNat)
  have reads : ∀ e ∈ run, ∀ x ∈ e.after.directory.awaited bare, read x.1 = x.2 := by decide +kernel
  have later : ∀ x ∈ r'.directory.awaited bare, read x.1 = x.2 := by decide +kernel
  have apart : ∀ e ∈ run, TellApart (e.after.directory.Awaits bare) := fun e mem =>
    Directory.tellApart_of_read read (reads e mem)
  have apart' : TellApart fun id n tag =>
      r.directory.Awaits bare id n tag ∨ r'.directory.Awaits bare id n tag := by
    refine .of_read read fun id n tag awaits => ?_
    rcases awaits with before | after
    · exact reads _ List.mem_cons_self _ (Directory.mem_awaited.2 before)
    · exact later _ (Directory.mem_awaited.2 after)
  have begins : Sender.opening bare ticket 100 40 .unlimited = .ok s := rfl
  have submits : Sender.submitAll .stops bare (front ++ [final]) s = some t := by decide +kernel
  have written : t.sink.taken = Sink.unlimited.taken ++ source.rest := by decide +kernel
  have listed : r.directory.listings[secret.id]? = some (.ofSecret bare secret) := by
    rw [show r.directory = Directory.empty.add bare secret from rfl, Directory.getElem?_listings_add]
    exact if_pos rfl
  have reached : ⟨_, _, _, r⟩ ∈ run := List.mem_cons_self
  obtain ⟨-, ⟨receiver, accepts, pair, -, delivers⟩, once⟩ := round_trip begins (by decide) (by decide) rfl
    (.inl (by decide)) submits written rfl apart (by decide +kernel) reached listed rfl rfl
    (by decide +kernel) ⟨rfl, rfl⟩ rfl (by decide +kernel) apart'
  exact ⟨begins, submits, receiver, r', accepts, pair, delivers 2, once source rfl⟩

/-- A single last frame with one byte and so much padding that nothing is left of its length but that of an
empty one. It is accepted, and nothing is written that the other peer could accept. -/
theorem not_round_trip :
    let ticket : Ticket := ⟨⟨7, "tcp"⟩, .wiped, 5, .bob⟩
    let final : Sender.Sheet := ⟨[1], Count.top, true⟩
    ∃ s, Sender.opening bare ticket 100 40 .unlimited = .ok s ∧ final.last = true ∧ ¬ final.Blank ∧
      Sender.submitAll .wraps bare [final] s = some s ∧ s.sink.taken = [] ∧
      ∀ r : Registry, ∃ fault, (accept bare ⟨[s.sink.taken], none⟩ 40).Ends r (.error fault) r := by
  intro ticket final
  have begins : Sender.opening bare ticket 100 40 .unlimited = .ok _ := rfl
  exact ⟨_, begins, rfl, by decide +kernel, by decide +kernel, rfl, fun r => ⟨_, rfl⟩⟩

end Receiver

end SealedStream
