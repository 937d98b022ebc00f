import SealedStream.Proofs.Actions
import SealedStream.Proofs.SeenWindow
import SealedStream.Proofs.Stream.Opening
import SealedStream.Stream.Receiver

/-!
# What a read takes

A receiver in the middle of a stream takes its next frame exactly if the bytes still to come begin
with that frame, sealed under the next number, and it has the length for its place.

## Main definitions

* `Frame.Begins` — some bytes begin with a sealed frame.
* `Receiver.Ready` — the next frame can be read.

## Main statements

* `Receiver.begins_of_next`, `Receiver.next_of_begins` — when a frame is read.
-/

namespace SealedStream

open Bytes SealedStream.Action

/-! ## Sources -/

namespace Source

variable {s t : Source} {n : Nat} {bs : Bytes}

/-- The source after `n` bytes were read. -/
def after (n : Nat) (s : Source) : Source := { s with chunks := (split n s.chunks).2 }

@[simp] theorem rest_after : (s.after n).rest = s.rest.drop n := split_snd n s.chunks

theorem ends_exactly_ok_iff : (exactly n).Ends s (.ok bs) t ↔
    n ≤ s.rest.length ∧ bs = s.rest.take n ∧ t = s.after n := by
  have front : (split n s.chunks).1 = s.rest.take n := split_fst n s.chunks
  simp only [exactly, ends_get_bind_iff, ends_set_bind_iff, front, List.length_take]
  split
  · rename_i whole
    rw [ends_pure_iff, Except.ok.injEq]
    have fits : n ≤ s.rest.length := by omega
    exact (and_iff_right fits).symm
  · rename_i part
    have short : ¬ n ≤ s.rest.length := by omega
    cases s.broken <;> simp [short]

theorem ends_exactly_of_short (unbroken : s.broken = none) (short : s.rest.length < n) :
    (exactly n).Ends s (.error .cutShort) (s.after n) := by
  have front : (split n s.chunks).1 = s.rest.take n := split_fst n s.chunks
  have part : (s.rest.take n).length ≠ n := by
    rw [List.length_take]
    omega
  simp only [exactly, ends_get_bind_iff, ends_set_bind_iff, front, if_neg part, unbroken]
  exact ends_throw_iff.2 ⟨rfl, by rw [after, unbroken]⟩

theorem ends_atMost_ok_iff (unbroken : s.broken = none) : (atMost n).Ends s (.ok bs) t ↔
    bs = s.rest.take n ∧ t = s.after n := by
  have front : (split n s.chunks).1 = s.rest.take n := split_fst n s.chunks
  simp only [atMost, ends_get_bind_iff, ends_set_bind_iff, front, unbroken, after]
  split <;> rw [ends_pure_iff, Except.ok.injEq]

end Source

/-! ## Frames in some bytes -/

/-- The bytes begin with the frame, sealed, and its length is right. The last frame ends them. -/
def Frame.Begins (suite : Suite) (key : Key) (frameLength : Nat) (f : Frame) (bs rest : Bytes) :
    Prop :=
  ∃ padding, bs = Frame.sealWhole suite key f.number f.payload padding f.last ++ rest ∧
    Frame.minLength + f.payload.length + padding ≤ frameLength ∧
    (f.last = false → Frame.minLength + f.payload.length + padding = frameLength) ∧
    (f.last = true → rest = [])

theorem Frame.Begins.length_le {suite : Suite} {key : Key} {frameLength : Nat} {f : Frame}
    {bs rest : Bytes} (begins : f.Begins suite key frameLength bs rest) :
    Frame.minLength + rest.length ≤ bs.length := by
  obtain ⟨padding, rfl, -, -, -⟩ := begins
  rw [List.length_append, Frame.length_sealWhole]
  omega

namespace Receiver

variable {suite : Suite} {r r' : Receiver} {key : Key} {f : Frame}

/-! ## Receivers -/

/-- A receiver that has read the frames before its number, and can read more. -/
structure Ready (key : Key) (r : Receiver) : Prop where
  key : r.opener.key? = some key
  base : r.opener.window.base = r.number
  bits : r.opener.window.bits = 0
  unbroken : r.source.broken = none

theorem ofTicket_eq_ok_iff {source : Source} {ticket : Ticket} {frameLength : Nat} :
    ofTicket suite source ticket frameLength = .ok r ↔ demandFrameLength frameLength = .ok () ∧
      r = ⟨source, .ofTicket suite ticket, 0, frameLength, ticket.toPair, ticket.stream, false⟩ := by
  unfold ofTicket
  cases demandFrameLength frameLength with
  | error fault => exact iff_of_false nofun nofun
  | ok _ =>
    constructor
    · rintro ⟨⟩
      exact ⟨rfl, rfl⟩
    · rintro ⟨-, rfl⟩
      rfl

/-- A receiver that begins has the key of the sender on the other side of its stream. -/
theorem ready_ofTicket {source : Source} {ticket ticket' : Ticket} {frameLength : Nat}
    (unbroken : source.broken = none) (key : ticket'.key = ticket.key)
    (stream : ticket'.stream = ticket.stream) (side : ticket'.side = ticket.side.other) :
    Ready (suite.frameKey ticket.side ticket.stream ticket.key)
      ⟨source, .ofTicket suite ticket', 0, frameLength, ticket'.toPair, ticket'.stream, false⟩ := by
  refine ⟨?_, rfl, rfl, unbroken⟩
  simp only [Opener.ofTicket, key, stream, side, Side.other_other]

theorem ends_onSource_ok_iff {α : Type} {act : Action StreamFault Source α} {a : α} :
    (onSource act).Ends r (.ok a) r' ↔ ∃ source, act.Ends r.source (.ok a) source ∧
      r' = { r with source } :=
  ends_focus_ok_iff

/-- How many bytes the body of a frame is read from. -/
def bodyLength (frameLength : Nat) (last : Bool) : Nat :=
  frameLength - Frame.sealedHeaderLength + if last then 1 else 0

/-- A body of `width` bytes is read from some bytes if its frame has the length for its place. -/
theorem bodyLength_iff {frameLength width left : Nat} {last : Bool}
    (long : Frame.minLength ≤ frameLength) :
    (min (bodyLength frameLength last) left = width + macLength ∧
      if last then min (bodyLength frameLength last) left ≤ frameLength - Frame.sealedHeaderLength
      else frameLength - Frame.sealedHeaderLength ≤ left) ↔
    Frame.minLength + width ≤ frameLength ∧
      (last = false → Frame.minLength + width = frameLength ∧ width + macLength ≤ left) ∧
      (last = true → left = width + macLength) := by
  unfold Frame.minLength at *
  unfold bodyLength Frame.sealedHeaderLength macLength
  cases last
  · simp only [Bool.false_eq_true, if_false]
    simp
    omega
  · simp only [if_true]
    simp
    omega

/-- The last body is all that comes, unless that is too long. -/
theorem ends_sealedBody_ok_iff {last : Bool} {sealed : Bytes} (unbroken : r.source.broken = none) :
    (sealedBody last).Ends r (.ok sealed) r' ↔
      sealed = r.source.rest.take (bodyLength r.frameLength last) ∧
        r' = { r with source := r.source.after (bodyLength r.frameLength last) } ∧
        if last then sealed.length ≤ r.frameLength - Frame.sealedHeaderLength
        else r.frameLength - Frame.sealedHeaderLength ≤ r.source.rest.length := by
  simp only [sealedBody, ends_get_bind_iff, bodyLength]
  cases last with
  | true =>
    simp only [if_true, ends_bind_ok_iff, ends_onSource_ok_iff, Source.ends_atMost_ok_iff unbroken]
    constructor
    · rintro ⟨bs, u, ⟨source, ⟨rfl, rfl⟩, rfl⟩, rest⟩
      split at rest
      · cases (ends_throw_bind_iff.1 rest).1
      · rename_i fits
        obtain ⟨eq, rfl⟩ := ends_pure_iff.1 rest
        cases eq
        exact ⟨rfl, rfl, by omega⟩
    · rintro ⟨rfl, rfl, fits⟩
      exact ⟨_, _, ⟨_, ⟨rfl, rfl⟩, rfl⟩, by rw [if_neg (by omega)]; simp⟩
  | false =>
    simp only [Bool.false_eq_true, if_false, Nat.add_zero, ends_onSource_ok_iff,
      Source.ends_exactly_ok_iff]
    constructor
    · rintro ⟨source, ⟨enough, rfl, rfl⟩, rfl⟩
      exact ⟨rfl, rfl, enough⟩
    · rintro ⟨rfl, rfl, enough⟩
      exact ⟨_, ⟨enough, rfl, rfl⟩, rfl⟩

/-- The window of a receiver that has read one frame more. -/
theorem Ready.mark (ready : r.Ready key) (room : r.number < Count.top) :
    ∃ window entered, r.opener.window.mark? r.number = some (window, entered) ∧
      window.base = r.number + 1 ∧ window.bits = 0 := by
  have marked := SeenWindow.mark?_base ready.bits (ready.base ▸ room)
  rw [ready.base] at marked
  exact marked

/-- A frame is read header first: its body is what the header says, of what is left. -/
theorem ends_readFrame_ok_iff (ready : r.Ready key) {window : SeenWindow} {entered : List Nat}
    (marks : r.opener.window.mark? r.number = some (window, entered)) :
    (readFrame suite).Ends r (.ok f) r' ↔
      ∃ header : Frame.Header, header.Valid ∧
        Frame.sealedHeaderLength ≤ r.source.rest.length ∧
        r.source.rest.take Frame.sealedHeaderLength =
          Frame.sealPart suite key r.number .header header.encode ∧
        let left := r.source.rest.drop Frame.sealedHeaderLength
        let sealed := left.take (bodyLength r.frameLength header.last)
        (if header.last then sealed.length ≤ r.frameLength - Frame.sealedHeaderLength
          else r.frameLength - Frame.sealedHeaderLength ≤ left.length) ∧
        (∃ padding,
          sealed = Frame.sealPart suite key r.number .body (f.payload ++ zeros padding)) ∧
        f.payload.length = header.payload.toNat ∧ f.number = r.number ∧ f.last = header.last ∧
        r' = { r with
          source := (r.source.after Frame.sealedHeaderLength).after
            (bodyLength r.frameLength header.last)
          opener := { r.opener with window } } := by
  obtain ⟨covers, fresh, -⟩ := SeenWindow.of_mark? marks
  have headerAt_iff {header : Frame.Header}
      (enough : Frame.sealedHeaderLength ≤ r.source.rest.length) :
      r.opener.headerAt suite r.number (r.source.rest.take Frame.sealedHeaderLength) = .ok header ↔
        header.Valid ∧ r.source.rest.take Frame.sealedHeaderLength =
          Frame.sealPart suite key r.number .header header.encode :=
    Opener.headerAt_eq_ok_iff ready.key covers fresh (List.length_take_of_le enough)
  simp only [readFrame, ends_bind_ok_iff, ends_onSource_ok_iff, Source.ends_exactly_ok_iff,
    ends_get_iff, ends_ofExcept_iff, ends_modify_iff, ends_pure_iff]
  constructor
  · rintro ⟨sealedHeader, _, ⟨_, ⟨enough, rfl, rfl⟩, rfl⟩, _, _, ⟨⟨⟩, rfl⟩, header, _,
      ⟨opens, rfl⟩, sealed, u, body, ⟨f', opener⟩, _, ⟨opens', rfl⟩, _, _, ⟨-, rfl⟩, ⟨⟩, rfl⟩
    obtain ⟨valid, sealedHeader⟩ := (headerAt_iff enough).1 opens.symm
    obtain ⟨rfl, rfl, fits⟩ := (ends_sealedBody_ok_iff (by exact ready.unbroken)).1 body
    obtain ⟨padded, length, number, last, rfl⟩ :=
      (Opener.body_eq_ok_iff ready.key marks).1 opens'.symm
    simp only [Source.rest_after] at fits padded
    exact ⟨header, valid, enough, sealedHeader, fits, padded, length, number, last, rfl⟩
  · rintro ⟨header, valid, enough, sealedHeader, fits, padded, length, number, last, rfl⟩
    refine ⟨_, _, ⟨_, ⟨enough, rfl, rfl⟩, rfl⟩, _, _, ⟨rfl, rfl⟩, header, _,
      ⟨((headerAt_iff enough).2 ⟨valid, sealedHeader⟩).symm, rfl⟩, _, _,
      (ends_sealedBody_ok_iff (by exact ready.unbroken)).2 ⟨rfl, rfl, ?_⟩, (f, _), _,
      ⟨((Opener.body_eq_ok_iff ready.key marks).2 ⟨?_, length, number, last, rfl⟩).symm, rfl⟩,
      (), _, ⟨trivial, rfl⟩, rfl, rfl⟩
    · simpa only [Source.rest_after] using fits
    · simpa only [Source.rest_after] using padded

theorem Ready.not_wiped (ready : r.Ready key) : ¬ r.opener.Wiped := by
  simp [Opener.Wiped, ready.key]

/-- A read of a frame counts it. -/
theorem ends_next_iff (ready : r.Ready key) (unfinished : r.finished = false) :
    (next suite).Ends r (.ok (some f)) r' ↔ ∃ u, (readFrame suite).Ends r (.ok f) u ∧
      r' = { u with number := u.number + 1, finished := f.last } := by
  simp only [next, ends_get_bind_iff, ready.not_wiped, unfinished, if_false, Bool.false_eq_true]
  simp only [ends_bind_ok_iff, ends_tryCatch_ok_iff, ends_modify_iff, ends_throw_iff, ends_pure_iff]
  constructor
  · rintro ⟨f', u, read | ⟨_, _, -, _, _, -, fail, -⟩, _, _, ⟨-, rfl⟩, eq, rfl⟩
    · cases eq
      exact ⟨u, read, rfl⟩
    · cases fail
  · rintro ⟨u, read, rfl⟩
    exact ⟨f, u, .inl read, (), _, ⟨trivial, rfl⟩, rfl, rfl⟩

theorem not_ends_next_none (ready : r.Ready key) (unfinished : r.finished = false) :
    ¬ (next suite).Ends r (.ok none) r' := by
  simp only [next, ends_get_bind_iff, ready.not_wiped, unfinished, if_false, Bool.false_eq_true]
  simp only [ends_bind_ok_iff, ends_pure_iff]
  rintro ⟨f, u, -, _, _, -, fail, -⟩
  cases fail

/-- After the last frame there is none. -/
theorem ends_next_of_finished (ready : r.Ready key) (finished : r.finished = true) :
    (next suite).Ends r (.ok none) r := by
  simp [next, ready.not_wiped, finished]

section Frames

variable (ready : r.Ready key) (room : r.number < Count.top) (unfinished : r.finished = false)
include ready room unfinished

/-- The receiver has read one frame more. -/
structure Moved (key : Key) (f : Frame) (r r' : Receiver) : Prop where
  ready : r'.Ready key
  number : r'.number = r.number + 1
  frameLength : r'.frameLength = r.frameLength
  finished : r'.finished = f.last

/-- A frame that was read stands sealed at the beginning of the bytes. -/
theorem begins_of_next (long : Frame.minLength ≤ r.frameLength)
    (h : (next suite).Ends r (.ok (some f)) r') :
    f.number = r.number ∧ f.Begins suite key r.frameLength r.source.rest r'.source.rest ∧
      Moved key f r r' := by
  obtain ⟨window, entered, marks, base, bits⟩ := ready.mark room
  obtain ⟨_, read, rfl⟩ := (ends_next_iff ready unfinished).1 h
  obtain ⟨header, valid, enough, sealedHeader, fits, ⟨padding, sealedBody⟩, length, number, last, rfl⟩ :=
    (ends_readFrame_ok_iff ready marks).1 read
  have header_eq : header = Frame.headerOf f.payload f.last := by
    rw [Frame.headerOf, length, last, UInt16.ofNat_toNat, ← valid.version]
  have split : r.source.rest = Frame.sealWhole suite key f.number f.payload padding f.last ++
      (r.source.rest.drop Frame.sealedHeaderLength).drop (bodyLength r.frameLength header.last) := by
    rw [Frame.sealWhole_eq, ← header_eq, number, ← sealedHeader, ← sealedBody, List.append_assoc,
      List.take_append_drop, List.take_append_drop]
  have width := congrArg List.length sealedBody
  rw [Frame.length_sealPart, List.length_append, length_zeros, List.length_take] at width
  rw [List.length_take] at fits
  obtain ⟨le, full, done⟩ := (bodyLength_iff long).1 ⟨width, fits⟩
  rw [← Nat.add_assoc] at le full
  rw [← last] at full done
  refine ⟨number, ⟨padding, by simpa using split, le, fun more => (full more).1, ?_⟩,
    ⟨ready.key, base, bits, ready.unbroken⟩, rfl, rfl, rfl⟩
  intro final
  simp only [Source.rest_after]
  refine List.drop_of_length_le ?_
  rw [done final]
  unfold Frame.minLength at le
  unfold bodyLength Frame.sealedHeaderLength macLength
  omega

/-- A sealed frame at the beginning of the bytes is read. -/
theorem next_of_begins (long : Frame.minLength ≤ r.frameLength)
    (short : r.frameLength ≤ Frame.maxLength) (number : f.number = r.number)
    {rest : Bytes} (begins : f.Begins suite key r.frameLength r.source.rest rest) :
    ∃ r', (next suite).Ends r (.ok (some f)) r' ∧ r'.source.rest = rest := by
  obtain ⟨window, entered, marks, -, -⟩ := ready.mark room
  obtain ⟨padding, bytes, le, full, done⟩ := begins
  have fits_payload : f.payload.length ≤ Frame.maxPayload := by
    unfold Frame.maxLength at short
    unfold Frame.minLength at le
    rw [Frame.maxPayload]
    omega
  let header := Frame.headerOf f.payload f.last
  let body := Frame.sealPart suite key r.number .body (f.payload ++ zeros padding)
  have width : body.length = f.payload.length + padding + macLength := by simp [body]
  rw [Frame.sealWhole_eq, number, List.append_assoc] at bytes
  have front : r.source.rest.take Frame.sealedHeaderLength =
      Frame.sealPart suite key r.number .header header.encode := by
    rw [bytes]
    exact List.take_left' Frame.length_sealHeader
  have left : r.source.rest.drop Frame.sealedHeaderLength = body ++ rest := by
    rw [bytes]
    exact List.drop_left' Frame.length_sealHeader
  have fits : Frame.minLength + (f.payload.length + padding) ≤ r.frameLength ∧
      (f.last = false → Frame.minLength + (f.payload.length + padding) = r.frameLength ∧
        f.payload.length + padding + macLength ≤ (body ++ rest).length) ∧
      (f.last = true → (body ++ rest).length = f.payload.length + padding + macLength) :=
    ⟨by omega, fun more => ⟨by rw [← full more, Nat.add_assoc], by simp [width]⟩,
      fun final => by simp [width, done final]⟩
  obtain ⟨whole, fits⟩ := (bodyLength_iff long).2 fits
  have taken : (body ++ rest).take (bodyLength r.frameLength f.last) = body := by
    rw [List.take_eq_take_min, whole, ← width, List.take_left]
  refine ⟨_, (ends_next_iff ready unfinished).2 ⟨_, (ends_readFrame_ok_iff ready marks).2
    ⟨header, Frame.valid_headerOf fits_payload, ?_, front, ?_, ⟨padding, ?_⟩,
      (Frame.payload_headerOf fits_payload).symm, number, rfl, rfl⟩, rfl⟩, ?_⟩
  · rw [bytes, List.length_append, Frame.length_sealHeader]
    exact Nat.le_add_right _ _
  · simpa only [left, List.length_take, header, Frame.headerOf] using fits
  · rw [left]
    exact taken
  · have cut := List.take_append_drop (bodyLength r.frameLength f.last) (body ++ rest)
    rw [taken] at cut
    simp only [Source.rest_after, left]
    exact List.append_cancel_left cut

end Frames

end Receiver

end SealedStream
