import SealedStream.Proofs.Bare
import SealedStream.Proofs.Stream.Exchange

/-!
# Streams that are cut short

A stream that breaks off before the header of its last frame is whole is not mistaken for one that
ends. Its receiver gives the frames that arrived in full, says that the stream is cut short, and gives
nothing more.

## Main definitions

* `Frame.BreaksOff` — some bytes end within a frame.

## Main statements

* `Receiver.next_of_breaksOff` — a frame that breaks off is told, and wipes the key.
* `Receiver.reads_of_cut` — what is left of a stream is read up to the cut.
* `Receiver.truncation` — the same for a whole stream, as it was written.
-/

namespace SealedStream

open SealedStream.Action

variable {suite : Suite} {key : Key}

/-! ## Frames in part -/

namespace Frame

variable {frameLength number : Nat} {bs : Bytes}

/-- The bytes end within the header of a frame, or within the body of one that is not the last. -/
def BreaksOff (suite : Suite) (key : Key) (frameLength number : Nat) (bs : Bytes) : Prop :=
  bs.length < frameLength ∧ (bs.length < sealedHeaderLength ∨
    ∃ header : Header, header.Valid ∧ header.last = false ∧
      bs.take sealedHeaderLength = sealPart suite key number .header header.encode)

/-- Too few bytes for a frame that is not the last break off, wherever they end. -/
theorem breaksOff_of_cut {x : Sender.Sheet} {later : List Sender.Sheet} (pending : x.last = false)
    (suits : x.Suits frameLength) (short : frameLength ≤ maxLength)
    (cut : bs <+: Sender.framesOf suite key number (x :: later)) (part : bs.length < frameLength) :
    BreaksOff suite key frameLength number bs := by
  by_cases few : bs.length < sealedHeaderLength
  · exact ⟨part, .inl few⟩
  have enough : sealedHeaderLength ≤ bs.length := Nat.le_of_not_lt few
  have fits : x.payload.length ≤ maxPayload := by
    have le := suits.le
    unfold maxLength at short
    unfold Sender.Sheet.length minLength at le
    unfold maxPayload
    omega
  have wide : sealedHeaderLength ≤
      (sealWhole suite key number x.payload x.padding x.last).length := by
    rw [length_sealWhole]
    unfold sealedHeaderLength minLength
    omega
  refine ⟨part, .inr ⟨headerOf x.payload x.last, valid_headerOf fits, pending, ?_⟩⟩
  calc bs.take sealedHeaderLength
    _ = (Sender.framesOf suite key number (x :: later)).take sealedHeaderLength := by
      rw [List.prefix_iff_eq_take.1 cut, List.take_take, Nat.min_eq_left enough]
    _ = (sealWhole suite key number x.payload x.padding x.last).take sealedHeaderLength :=
      List.take_append_of_le_length wide
    _ = sealPart suite key number .header (headerOf x.payload x.last).encode := take_sealWhole

end Frame

namespace Receiver

variable {r r' : Receiver}

/-! ## One read -/

theorem ends_onSource_error_iff {α : Type} {act : Action StreamFault Source α} {fault : StreamFault} :
    (onSource act).Ends r (.error fault) r' ↔
      ∃ source, act.Ends r.source (.error fault) source ∧ r' = { r with source } := by
  simp only [onSource, ends_focus_iff]
  constructor
  · rintro ⟨answer, source, ends, named, rfl⟩
    cases answer with
    | ok _ => cases named
    | error _ =>
      cases named
      exact ⟨source, ends, rfl⟩
  · rintro ⟨source, ends, rfl⟩
    exact ⟨_, source, ends, rfl, rfl⟩

/-- The frame is refused as cut short, whether its header is missing or its body. -/
theorem readFrame_of_breaksOff (ready : r.Ready key) (room : r.number < Count.top)
    (breaks : Frame.BreaksOff suite key r.frameLength r.number r.source.rest) :
    ∃ source, (readFrame suite).Ends r (.error .cutShort) { r with source } := by
  by_cases few : r.source.rest.length < Frame.sealedHeaderLength
  · exact ⟨_, ends_bind_iff.2 (.inl ⟨_, ends_onSource_error_iff.2
      ⟨_, Source.ends_exactly_of_short ready.unbroken few, rfl⟩, rfl⟩)⟩
  obtain ⟨part, breaks⟩ := breaks
  obtain ⟨header, valid, pending, sealedHeader⟩ := breaks.resolve_left few
  have enough : Frame.sealedHeaderLength ≤ r.source.rest.length := Nat.le_of_not_lt few
  obtain ⟨window, entered, marks, -, -⟩ := ready.mark room
  obtain ⟨covers, fresh, -⟩ := SeenWindow.of_mark? marks
  have opens : r.opener.headerAt suite r.number (r.source.rest.take Frame.sealedHeaderLength) =
      .ok header :=
    (Opener.headerAt_eq_ok_iff ready.key covers fresh (List.length_take_of_le enough)).2
      ⟨valid, sealedHeader⟩
  let body := r.source.after Frame.sealedHeaderLength
  let limit := r.frameLength - Frame.sealedHeaderLength
  have left : body.rest.length < limit := by
    rw [Source.rest_after, List.length_drop]
    omega
  have fails : (sealedBody header.last).Ends { r with source := body } (.error .cutShort)
      { r with source := body.after limit } := by
    simp only [sealedBody, ends_get_bind_iff, pending, Bool.false_eq_true, if_false]
    exact ends_onSource_error_iff.2
      ⟨_, Source.ends_exactly_of_short (by exact ready.unbroken) left, rfl⟩
  refine ⟨body.after limit, ends_bind_iff.2 (.inr ⟨_, { r with source := body },
    ends_onSource_ok_iff.2 ⟨_, Source.ends_exactly_ok_iff.2 ⟨enough, rfl, rfl⟩, rfl⟩, ?_⟩)⟩
  rw [ends_get_bind_iff]
  exact ends_ofExcept_bind_iff.2 (.inr ⟨header, opens, ends_bind_iff.2 (.inl ⟨_, fails, rfl⟩)⟩)

/-- A frame that breaks off is told, and the key is wiped. The stream does not count as finished. -/
theorem next_of_breaksOff (ready : r.Ready key) (unfinished : r.finished = false)
    (room : r.number < Count.top)
    (breaks : Frame.BreaksOff suite key r.frameLength r.number r.source.rest) :
    ∃ r', (next suite).Ends r (.error .cutShort) r' ∧ r'.opener.Wiped ∧ r'.finished = false := by
  obtain ⟨source, fails⟩ := readFrame_of_breaksOff ready room breaks
  refine ⟨{ r with source, opener := r.opener.wipe }, ?_, rfl, unfinished⟩
  simp only [next, ends_get_bind_iff, ready.not_wiped, unfinished, if_false, Bool.false_eq_true]
  refine ends_bind_iff.2 (.inl ⟨_, ends_tryCatch_iff.2 (.inr ⟨_, _, fails, ?_⟩), rfl⟩)
  rw [ends_modify_bind_iff, ends_throw_iff]
  exact ⟨rfl, by rw [unfinished]⟩

/-! ## Reads in a row -/

/-- Without a key every read fails, and nothing changes. -/
theorem reads_of_wiped (wiped : r.opener.Wiped) (n : Nat) :
    r.reads suite n = List.replicate n (.error .wiped, r.finished) := by
  have ends : (next suite).Ends r (.error .wiped) r := by
    rw [next, ends_get_bind_iff, if_pos wiped]
    exact ends_throw_bind_iff.2 ⟨rfl, rfl⟩
  induction n with
  | zero => rfl
  | succ n ih => rw [reads_succ ends, ih, List.replicate_succ]

/-- Reads in a row give the frames, then say that the stream is cut short, and then fail for want of a
key. The stream never counts as finished. -/
def StopsShort (suite : Suite) (fs : List Frame) (r : Receiver) : Prop :=
  ∀ n, r.reads suite (fs.length + (n + 1)) = fs.map (fun f => (.ok (some f), false)) ++
    (.error .cutShort, false) :: List.replicate n (.error .wiped, false)

theorem stopsShort_nil (ready : r.Ready key) (unfinished : r.finished = false)
    (room : r.number < Count.top)
    (breaks : Frame.BreaksOff suite key r.frameLength r.number r.source.rest) :
    r.StopsShort suite [] := by
  obtain ⟨r', ends, wiped, finished⟩ := next_of_breaksOff ready unfinished room breaks
  intro n
  rw [List.length_nil, Nat.zero_add, reads_succ ends, reads_of_wiped wiped, finished, List.map_nil,
    List.nil_append]

theorem stopsShort_cons {f : Frame} {fs : List Frame} (ends : (next suite).Ends r (.ok (some f)) r')
    (unfinished : r'.finished = false) (stops : r'.StopsShort suite fs) :
    r.StopsShort suite (f :: fs) := by
  intro n
  rw [List.length_cons, Nat.add_right_comm, reads_succ ends, stops n, unfinished, List.map_cons,
    List.cons_append]

/-- A frame that is there in full is read, and what follows is cut from the frames after it. -/
theorem next_of_cut {x : Sender.Sheet} {later : List Sender.Sheet} (ready : r.Ready key)
    (unfinished : r.finished = false) (long : Frame.minLength ≤ r.frameLength)
    (short : r.frameLength ≤ Frame.maxLength) (room : r.number < Count.top)
    (pending : x.last = false) (suits : x.Suits r.frameLength)
    (cut : r.source.rest <+: Sender.framesOf suite key r.number (x :: later))
    (enough : r.frameLength ≤ r.source.rest.length) :
    ∃ r', (next suite).Ends r (.ok (some ⟨r.number, x.payload, false⟩)) r' ∧
      Moved key ⟨r.number, x.payload, false⟩ r r' ∧
      r.source.rest.length = r'.source.rest.length + r.frameLength ∧
      r'.source.rest <+: Sender.framesOf suite key r'.number later := by
  have width : (Frame.sealWhole suite key r.number x.payload x.padding x.last).length =
      r.frameLength := (Frame.length_sealWhole ..).trans (suits.full pending)
  obtain ⟨bs, split⟩ := List.prefix_of_prefix_length_le (List.prefix_append _ _) cut
    (width.trans_le enough)
  rw [← split, Sender.framesOf, List.prefix_append_right_inj] at cut
  have begins : Frame.Begins suite key r.frameLength ⟨r.number, x.payload, false⟩ r.source.rest bs :=
    ⟨x.padding, by rw [← split, pending], suits.le, fun _ => suits.full pending, by simp⟩
  obtain ⟨r', ends, rfl⟩ := next_of_begins ready room unfinished long short rfl begins
  obtain ⟨-, -, moved⟩ := begins_of_next ready room unfinished long ends
  refine ⟨r', ends, moved, ?_, moved.number ▸ cut⟩
  rw [← split, List.length_append, width, Nat.add_comm]

/-- The frames that are there in full are read, up to the cut. -/
theorem stopsShort_of_cut {front later : List Sender.Sheet} (ready : r.Ready key)
    (unfinished : r.finished = false) (long : Frame.minLength ≤ r.frameLength)
    (short : r.frameLength ≤ Frame.maxLength) (room : r.number + front.length < Count.top)
    (pending : ∀ x ∈ front, x.last = false) (suits : ∀ x ∈ front, x.Suits r.frameLength)
    (cut : r.source.rest <+: Sender.framesOf suite key r.number (front ++ later))
    (early : r.source.rest.length < front.length * r.frameLength + Frame.sealedHeaderLength) :
    r.source.rest.length / r.frameLength ≤ front.length ∧
      r.StopsShort suite ((front.take (r.source.rest.length / r.frameLength)).mapIdx
        fun i x => ⟨r.number + i, x.payload, false⟩) := by
  induction front generalizing r with
  | nil =>
    have few : r.source.rest.length < Frame.sealedHeaderLength := by simpa using early
    have part : r.source.rest.length < r.frameLength :=
      (few.trans (by decide : Frame.sealedHeaderLength < Frame.minLength)).trans_le long
    rw [Nat.div_eq_of_lt part]
    exact ⟨le_rfl, stopsShort_nil ready unfinished room ⟨part, .inl few⟩⟩
  | cons x front ih =>
    obtain ⟨pending_x, pending⟩ := List.forall_mem_cons.1 pending
    obtain ⟨suits_x, suits⟩ := List.forall_mem_cons.1 suits
    rw [List.length_cons] at room early ⊢
    rw [List.cons_append] at cut
    have room_x : r.number < Count.top := by omega
    by_cases part : r.source.rest.length < r.frameLength
    · rw [Nat.div_eq_of_lt part]
      exact ⟨Nat.zero_le _, stopsShort_nil ready unfinished room_x
        (Frame.breaksOff_of_cut pending_x suits_x short cut part)⟩
    obtain ⟨r', ends, moved, length, cut⟩ := next_of_cut ready unfinished long short room_x pending_x
      suits_x cut (Nat.le_of_not_lt part)
    have whole : r.source.rest.length / r.frameLength =
        r'.source.rest.length / r'.frameLength + 1 := by
      rw [length, Nat.add_div_right _ ((by decide : 0 < Frame.minLength).trans_le long),
        moved.frameLength]
    have early : r'.source.rest.length <
        front.length * r'.frameLength + Frame.sealedHeaderLength := by
      rw [length, Nat.add_mul] at early
      rw [moved.frameLength]
      omega
    rw [← moved.frameLength] at long short suits
    obtain ⟨le, stops⟩ := ih moved.ready moved.finished long short (by rw [moved.number]; omega)
      pending suits cut early
    rw [whole, List.take_succ_cons, List.mapIdx_cons]
    refine ⟨Nat.succ_le_succ le, stopsShort_cons ends moved.finished ?_⟩
    simpa only [moved.number, Nat.add_assoc, Nat.add_comm 1] using stops

/-! ## Both sides -/

/-- However the answer on a stream is cut before the header of its final frame is whole, a receiver of
the other side, with the same secret, stream and frame length, gives the frames that are there in
full, in order and each in its place, then says that the stream is cut short, and then fails for good.
The stream never counts as finished. -/
theorem truncation {source : Source} {ticket : Ticket} {capacity frameLength : Nat} {sink : Sink}
    {s t : Sender} {front : List Sender.Sheet} {final : Sender.Sheet} {written : Bytes}
    (ticket' : Ticket) (begins : Sender.answering suite ticket capacity frameLength sink = .ok s)
    (count : capacity ≤ Count.top) (pending : ∀ x ∈ front, x.last = false)
    (writes : (Sender.writeAll suite (front ++ [final])).Ends s (.ok ()) t)
    (taken : t.sink.taken = sink.taken ++ written) (unbroken : source.broken = none)
    (cut : source.rest <+: written)
    (early : source.rest.length < front.length * frameLength + Frame.sealedHeaderLength)
    (key : ticket'.key = ticket.key) (stream : ticket'.stream = ticket.stream)
    (side : ticket'.side = ticket.side.other) :
    source.rest.length / frameLength ≤ front.length ∧
      ∃ r, ofTicket suite source ticket' frameLength = .ok r ∧
        r.StopsShort suite ((front.take (source.rest.length / frameLength)).mapIdx
          fun i x => ⟨i, x.payload, false⟩) := by
  obtain ⟨demand, rfl⟩ := Sender.answering_eq_ok_iff.1 begins
  obtain ⟨long, short⟩ := demandFrameLength_eq_ok_iff.1 demand
  let key' := suite.frameKey ticket.side ticket.stream ticket.key
  have wrote := Sender.wrote_of_writeAll rfl (.inl rfl) writes
  have frames : written = Sender.framesOf suite key' 0 (front ++ [final]) := by
    have whole := List.append_cancel_left (taken.symm.trans wrote.taken)
    simpa using whole
  rw [frames] at cut
  let r : Receiver := ⟨source, .ofTicket suite ticket', 0, frameLength, ticket'.toPair,
    ticket'.stream, false⟩
  have made : ofTicket suite source ticket' frameLength = .ok r := ofTicket_eq_ok_iff.2 ⟨demand, rfl⟩
  have ready : r.Ready key' := ready_ofTicket unbroken key stream side
  have room : r.number + front.length < Count.top := by
    have frames_le := wrote.minLength_mul_le.trans count
    rw [List.length_append, List.length_singleton] at frames_le
    unfold Frame.minLength at frames_le
    dsimp only [r]
    omega
  obtain ⟨le, stops⟩ := stopsShort_of_cut ready rfl long short room pending
    (fun x mem => wrote.suits x (List.mem_append_left _ mem)) cut early
  exact ⟨le, r, made, by simpa only [r, Nat.zero_add] using stops⟩

/-- Of three frames, one and a part of the body of the second arrive, in two pieces. -/
theorem truncation_of_second_frame :
    let ticket : Ticket := ⟨⟨7, "tcp"⟩, .wiped, 5, .bob⟩
    let front : List Sender.Sheet := [⟨[1, 2], 2, false⟩, ⟨[7], 3, false⟩]
    let final : Sender.Sheet := ⟨[3], 0, true⟩
    let s : Sender := ⟨some (bare.frameKey .bob 5 .wiped), none, 40, 0, 120, .unlimited⟩
    let t := ((Sender.writeAll bare (front ++ [final])).toExcept s).2
    let source : Source := ⟨[t.sink.taken.take 13, (t.sink.taken.drop 13).take 57], none⟩
    Sender.answering bare ticket 120 40 .unlimited = .ok s ∧
      (Sender.writeAll bare (front ++ [final])).Ends s (.ok ()) t ∧ source.rest <+: t.sink.taken ∧
      ∃ r, ofTicket bare source ⟨⟨1, "tcp"⟩, .wiped, 5, .alice⟩ 40 = .ok r ∧
        r.reads bare 4 = [(.ok (some ⟨0, [1, 2], false⟩), false), (.error .cutShort, false),
          (.error .wiped, false), (.error .wiped, false)] := by
  intro ticket front final s t source
  have begins : Sender.answering bare ticket 120 40 .unlimited = .ok s := rfl
  have writes : (Sender.writeAll bare (front ++ [final])).Ends s (.ok ()) t := rfl
  have rest : source.rest = t.sink.taken.take 70 := by decide +kernel
  have width : source.rest.length = 70 := by decide +kernel
  have cut : source.rest <+: t.sink.taken := rest ▸ List.take_prefix 70 t.sink.taken
  obtain ⟨-, r, made, stops⟩ := truncation ⟨⟨1, "tcp"⟩, .wiped, 5, .alice⟩ begins (by decide)
    (by decide) writes rfl rfl cut (by rw [width]; decide) rfl rfl rfl
  rw [width] at stops
  exact ⟨begins, writes, cut, r, made, stops 2⟩

end Receiver

end SealedStream
