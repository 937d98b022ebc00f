import SealedStream.Proofs.Stream.Reading
import SealedStream.Proofs.Stream.Written

/-!
# What is read is what was written

A receiver gives some frames from some bytes and finds the stream complete exactly if a sender on the
other side writes those bytes, given the payloads of the frames and some padding. No bytes but these
are accepted, and no frame is told in another place than it was written for.

## Main definitions

* `Frame.Sequence` — frames numbered in a row, the final one being the last of its stream.
* `Frame.Spells` — some bytes are a sequence of sealed frames.
* `Receiver.Delivers` — a receiver gives frames and finds the stream complete.

## Main statements

* `Receiver.delivers_iff_written` — reading and writing agree on every input.
-/

namespace SealedStream

open SealedStream.Action

namespace Frame

/-- The frames are numbered from `number` on. The final one is flagged as the last, no other is. -/
def Sequence : (number : Nat) → List Frame → Prop
  | _, [] => False
  | number, f :: fs => f.number = number ∧ if f.last then fs = [] else Sequence (number + 1) fs

/-- The bytes are a sequence of sealed frames. -/
def Spells (suite : Suite) (key : Key) (frameLength : Nat) :
    (number : Nat) → List Frame → (bs : Bytes) → Prop
  | _, [], _ => False
  | number, f :: fs, bs => f.number = number ∧ ∃ rest, f.Begins suite key frameLength bs rest ∧
      if f.last then fs = [] else Spells suite key frameLength (number + 1) fs rest

end Frame

variable {suite : Suite} {key : Key}

/-! ## Reading -/

namespace Receiver

/-- Reads in a row give the frames, and then there is no more. Whether the last frame was read is told
with each of them. -/
def Delivers (suite : Suite) (fs : List Frame) (r : Receiver) : Prop :=
  r.reads suite (fs.length + 1) = fs.map (fun f => (.ok (some f), f.last)) ++ [(.ok none, true)]

variable {r r' : Receiver} {f : Frame} {fs : List Frame}

theorem reads_succ {answer : Except StreamFault (Option Frame)} (ends : (next suite).Ends r answer r')
    (n : Nat) : r.reads suite (n + 1) = (answer, r'.finished) :: r'.reads suite n := by
  unfold Ends at ends
  simp only [reads, ends]

theorem delivers_nil_iff :
    r.Delivers suite [] ↔ ∃ r', (next suite).Ends r (.ok none) r' ∧ r'.finished = true := by
  simp only [Delivers, List.length_nil, reads, List.map_nil, List.nil_append, List.cons.injEq,
    and_true, Prod.mk.injEq, Ends]
  constructor
  · rintro ⟨answer, finished⟩
    exact ⟨_, by rw [← answer], finished⟩
  · rintro ⟨r', ends, finished⟩
    rw [ends]
    exact ⟨rfl, finished⟩

theorem delivers_cons_iff :
    r.Delivers suite (f :: fs) ↔ ∃ r', (next suite).Ends r (.ok (some f)) r' ∧
      r'.finished = f.last ∧ r'.Delivers suite fs := by
  simp only [Delivers, List.length_cons, reads, List.map_cons, List.cons_append, List.cons.injEq,
    Prod.mk.injEq, Ends, and_assoc]
  constructor
  · rintro ⟨answer, finished, rest⟩
    exact ⟨_, by rw [← answer], finished, rest⟩
  · rintro ⟨r', ends, finished, rest⟩
    rw [ends]
    exact ⟨rfl, finished, rest⟩

/-- A receiver that has read the last frame gives none. -/
theorem delivers_iff_of_finished (ready : r.Ready key) (finished : r.finished = true) :
    r.Delivers suite fs ↔ fs = [] := by
  cases fs with
  | nil => simpa [delivers_nil_iff] using ⟨r, ends_next_of_finished ready finished, finished⟩
  | cons f fs =>
    simp only [delivers_cons_iff, reduceCtorEq, iff_false, not_exists]
    rintro r' ⟨ends, -⟩
    cases (ends.unique (ends_next_of_finished ready finished)).1

/-- A receiver delivers the frames that its bytes spell, and no others. -/
theorem delivers_iff_spells (ready : r.Ready key) (unfinished : r.finished = false)
    (long : Frame.minLength ≤ r.frameLength) (short : r.frameLength ≤ Frame.maxLength)
    (room : Frame.minLength * r.number + r.source.rest.length ≤ Count.top) :
    r.Delivers suite fs ↔ Frame.Spells suite key r.frameLength r.number fs r.source.rest := by
  induction fs generalizing r with
  | nil =>
    rw [delivers_nil_iff, Frame.Spells, iff_false]
    rintro ⟨r', ends, -⟩
    exact not_ends_next_none ready unfinished ends
  | cons f fs ih =>
    have lt : r.number < Count.top := by
      unfold Frame.minLength at room
      unfold Count.top at room ⊢
      omega
    have rest_iff {r' : Receiver}
        (begins : f.Begins suite key r.frameLength r.source.rest r'.source.rest)
        (moved : Moved key f r r') :
        r'.Delivers suite fs ↔ if f.last then fs = [] else
          Frame.Spells suite key r.frameLength (r.number + 1) fs r'.source.rest := by
      have shorter := begins.length_le
      rw [← moved.number, ← moved.frameLength]
      cases last : f.last with
      | true => exact delivers_iff_of_finished moved.ready (moved.finished.trans last)
      | false =>
        refine ih moved.ready (moved.finished.trans last) ?_ ?_ ?_
        · rw [moved.frameLength]
          exact long
        · rw [moved.frameLength]
          exact short
        · rw [moved.number, Nat.mul_add]
          omega
    rw [delivers_cons_iff, Frame.Spells]
    constructor
    · rintro ⟨r', ends, -, rest⟩
      obtain ⟨number, begins, moved⟩ := begins_of_next ready lt unfinished long ends
      exact ⟨number, _, begins, (rest_iff begins moved).1 rest⟩
    · rintro ⟨number, rest, begins, more⟩
      obtain ⟨r', ends, rfl⟩ := next_of_begins ready lt unfinished long short number begins
      obtain ⟨-, -, moved⟩ := begins_of_next ready lt unfinished long ends
      exact ⟨r', ends, moved.finished, (rest_iff begins moved).2 more⟩

end Receiver

/-! ## Writing -/

namespace Sender

variable {s t : Sender} {fs : List Frame} {sheets : List Sheet}

/-- The frames that sheets make spell a sequence with their payloads and flags. -/
theorem spells_framesOf {number frameLength : Nat} (sequence : Frame.Sequence number fs)
    (same : sheets.map (fun x => (x.payload, x.last)) = fs.map (fun f => (f.payload, f.last)))
    (suits : ∀ x ∈ sheets, x.Suits frameLength) :
    Frame.Spells suite key frameLength number fs (framesOf suite key number sheets) := by
  induction fs generalizing number sheets with
  | nil => exact sequence.elim
  | cons f fs ih =>
    obtain ⟨number_eq, more⟩ := sequence
    obtain ⟨x, xs, rfl, payload_last, same⟩ := List.map_eq_cons_iff.1 same
    obtain ⟨payload, last⟩ := Prod.mk.inj payload_last
    rw [List.forall_mem_cons] at suits
    have begins (rest : Bytes) (done : f.last = true → rest = []) : f.Begins suite key frameLength
        (Frame.sealWhole suite key number x.payload x.padding x.last ++ rest) rest :=
      ⟨x.padding, by rw [number_eq, payload, last], by rw [← payload]; exact suits.1.le,
        fun more => by rw [← payload]; exact suits.1.full (last.trans more), done⟩
    refine ⟨number_eq, _, begins _ ?_, ?_⟩
    · intro final
      rw [final, if_pos rfl] at more
      subst more
      rw [List.map_eq_nil_iff.1 same, framesOf_nil]
    · cases final : f.last with
      | true =>
        rw [final, if_pos rfl] at more
        simpa using more
      | false =>
        rw [final, if_neg (by simp)] at more
        simpa using ih more same suits.2

/-- What a sender without a tag writes for a sequence of frames are bytes that spell it. -/
theorem spells_of_writes (kept : s.key? = some key) (plain : s.tag? = none)
    (sequence : Frame.Sequence s.written fs)
    (same : sheets.map (fun x => (x.payload, x.last)) = fs.map (fun f => (f.payload, f.last)))
    (ends : (writeAll suite sheets).Ends s (.ok ()) t) :
    ∃ bs, t.sink.taken = s.sink.taken ++ bs ∧
      Frame.Spells suite key s.frameLength s.written fs bs := by
  have wrote := wrote_of_writeAll kept (.inl plain) ends
  refine ⟨framesOf suite key s.written sheets, ?_, spells_framesOf sequence same wrote.suits⟩
  simpa [plain] using wrote.taken

/-- A sender without a tag writes any bytes that spell a sequence of frames, as far as its capacity
goes. -/
theorem writes_of_spells (kept : s.key? = some key) (plain : s.tag? = none)
    (unlimited : s.sink.room = none) {bs : Bytes} (enough : bs.length ≤ s.capacity)
    (spells : Frame.Spells suite key s.frameLength s.written fs bs) :
    Frame.Sequence s.written fs ∧ ∃ (sheets : List Sheet) (t : Sender),
      sheets.map (fun x => (x.payload, x.last)) = fs.map (fun f => (f.payload, f.last)) ∧
        (writeAll suite sheets).Ends s (.ok ()) t ∧ t.sink.taken = s.sink.taken ++ bs := by
  induction fs generalizing s bs with
  | nil => exact spells.elim
  | cons f fs ih =>
    obtain ⟨number, rest, ⟨padding, rfl, le, full, done⟩, more⟩ := spells
    let x : Sheet := ⟨f.payload, padding, f.last⟩
    have frame : handed suite key x s =
        Frame.sealWhole suite key f.number f.payload padding f.last := by
      rw [handed, plain, Option.elim_none, List.nil_append, number]
    have width := Frame.length_sealWhole suite key f.number f.payload padding f.last
    rw [List.length_append, width] at enough
    have fits : x.length ≤ s.capacity := (Nat.le_add_right _ _).trans enough
    have first : (write suite x).Ends s (.ok ()) (counted x (s.sink.add (handed suite key x s)) s) :=
      (ends_write_ok_iff plain unlimited).2 ⟨key, kept, ⟨le, full⟩, fits, rfl⟩
    rw [frame] at first
    cases final : f.last with
    | true =>
      rw [final, if_pos rfl] at more
      subst more
      refine ⟨⟨number, by rw [final]; rfl⟩, [x], _, rfl, ends_bind_ok_iff.2
        ⟨(), _, first, ends_pure_iff.2 ⟨rfl, rfl⟩⟩, ?_⟩
      rw [done final, List.append_nil, ← final]
      rfl
    | false =>
      rw [final, if_neg (by simp)] at more
      have left : rest.length ≤ s.capacity - x.length := by
        rw [show x.length = Frame.minLength + f.payload.length + padding from rfl]
        omega
      obtain ⟨sequence, sheets, t, same, ends, taken⟩ :=
        ih (s := counted x (s.sink.add _) s) kept rfl unlimited left more
      refine ⟨⟨number, by rw [final, if_neg (by simp)]; exact sequence⟩, x :: sheets, t, ?_,
        ends_bind_ok_iff.2 ⟨(), _, first, ends⟩, ?_⟩
      · rw [List.map_cons, same, List.map_cons]
      · rw [taken, ← List.append_assoc, ← final]
        rfl

end Sender

/-! ## Both sides -/

namespace Receiver

/-- For every input of a receiver: it delivers some frames exactly if they are a sequence from zero on
and there are sheets with their payloads and flags that a sender of the other side, with the same
secret, stream and frame length and with enough capacity, takes one after the other, writing nothing
but the input. -/
theorem delivers_iff_written {source : Source} {ticket : Ticket} {frameLength capacity : Nat}
    (valid : Frame.minLength ≤ frameLength ∧ frameLength ≤ Frame.maxLength)
    (unbroken : source.broken = none) (enough : source.rest.length ≤ capacity)
    (count : capacity ≤ Count.top) (fs : List Frame) :
    (∃ r, ofTicket suite source ticket frameLength = .ok r ∧ r.Delivers suite fs) ↔
      Frame.Sequence 0 fs ∧ ∃ (s t : Sender) (sheets : List Sender.Sheet),
        Sender.answering suite { ticket with side := ticket.side.other } capacity frameLength
          .unlimited = .ok s ∧
        sheets.map (fun x => (x.payload, x.last)) = fs.map (fun f => (f.payload, f.last)) ∧
        (Sender.writeAll suite sheets).Ends s (.ok ()) t ∧ t.sink.taken = source.rest := by
  have demand : demandFrameLength frameLength = .ok () := if_pos valid
  let key := suite.frameKey ticket.side.other ticket.stream ticket.key
  let r : Receiver := ⟨source, .ofTicket suite ticket, 0, frameLength, ticket.toPair, ticket.stream,
    false⟩
  let s : Sender := ⟨some key, none, frameLength, 0, capacity, .unlimited⟩
  have reads : ofTicket suite source ticket frameLength = .ok r :=
    ofTicket_eq_ok_iff.2 ⟨demand, rfl⟩
  have writes : Sender.answering suite { ticket with side := ticket.side.other } capacity frameLength
      .unlimited = .ok s := Sender.answering_eq_ok_iff.2 ⟨demand, rfl⟩
  have ready : r.Ready key := ⟨rfl, rfl, rfl, unbroken⟩
  have spells : r.Delivers suite fs ↔ Frame.Spells suite key frameLength 0 fs source.rest :=
    delivers_iff_spells ready rfl valid.1 valid.2 (by simpa [r] using enough.trans count)
  constructor
  · rintro ⟨r', made, delivers⟩
    obtain rfl := Except.ok.inj (reads.symm.trans made)
    obtain ⟨sequence, sheets, t, same, ends, taken⟩ :=
      Sender.writes_of_spells (s := s) rfl rfl rfl enough (spells.1 delivers)
    exact ⟨sequence, s, t, sheets, writes, same, ends, taken⟩
  · rintro ⟨sequence, s', t, sheets, made, same, ends, taken⟩
    obtain rfl := Except.ok.inj (writes.symm.trans made)
    obtain ⟨bs, taken', spells'⟩ :=
      Sender.spells_of_writes (s := s) rfl rfl sequence same ends
    obtain rfl : bs = source.rest := taken'.symm.trans taken
    exact ⟨r, reads, spells.2 spells'⟩

/-- A full frame and a padded last one, written by the side that answers, arrive in pieces. -/
theorem delivers_two_frames :
    let key := Suite.standard.frameKey .bob 5 .wiped
    let full : Bytes := List.replicate 28 7
    let sent := Frame.sealWhole .standard key 0 full 0 false ++
      Frame.sealWhole .standard key 1 [1, 2, 3] 4 true
    ∃ r, ofTicket .standard ⟨[sent.take 50, sent.drop 50], none⟩ ⟨⟨1, "tcp"⟩, .wiped, 5, .alice⟩ 64 =
        .ok r ∧ r.Delivers .standard [⟨0, full, false⟩, ⟨1, [1, 2, 3], true⟩] := by
  -- It is the same for every suite, and no ciphers have to be evaluated.
  generalize Suite.standard = suite
  intro key full sent
  have spells : Frame.Spells suite key 64 0 [⟨0, full, false⟩, ⟨1, [1, 2, 3], true⟩] sent :=
    ⟨rfl, _, ⟨0, rfl, by decide, fun _ => by decide, nofun⟩, rfl, [],
      ⟨4, (List.append_nil _).symm, by decide, nofun, fun _ => rfl⟩, rfl⟩
  have whole : Source.rest ⟨[sent.take 50, sent.drop 50], none⟩ = sent := by
    simp [Source.rest]
  have width : sent.length = 107 := by
    simp [sent, full, Frame.length_sealWhole, Frame.minLength]
  let s : Sender := ⟨some key, none, 64, 0, 200, .unlimited⟩
  obtain ⟨sequence, sheets, t, same, ends, taken⟩ :=
    Sender.writes_of_spells (s := s) rfl rfl rfl (width ▸ show 107 ≤ 200 by decide) spells
  have made : Sender.answering suite ⟨⟨1, "tcp"⟩, .wiped, 5, .bob⟩ 200 64 .unlimited = .ok s :=
    Sender.answering_eq_ok_iff.2 ⟨by decide, rfl⟩
  refine (@delivers_iff_written suite ⟨[sent.take 50, sent.drop 50], none⟩
    ⟨⟨1, "tcp"⟩, .wiped, 5, .alice⟩ 64 200 ⟨by decide, by decide⟩ rfl ?_ (by decide) _).2
      ⟨sequence, s, t, sheets, made, same, ends, ?_⟩
  · rw [whole, width]
    decide
  · rw [whole, taken]
    exact List.nil_append sent

end Receiver

end SealedStream
