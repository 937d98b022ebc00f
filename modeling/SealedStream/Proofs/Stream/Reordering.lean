import SealedStream.Proofs.SeenWindow
import SealedStream.Proofs.Stream.Accounting
import SealedStream.Proofs.Stream.Opening

/-!
# Frames in any order

An opener is given the frames of a sender in any order, some of them more than once and some not at
all. It opens a frame the first time that it comes, if not too many of those before it are missing, and
tells its number, which the frame does not show.

## Main definitions

* `Sender.frames` — the frames that a sender wrote, one by one.
* `Frame.Distinct` — what is asked of sealing.
* `Opener.receive`, `Opener.log` — an opener is given a frame, or several.
* `Opener.Admitted` — which frames an opener opens.

## Main statements

* `Sender.of_mem_frames` — the frames of a sender are numbered in a row.
* `Opener.receive_sealWhole` — what an opener does with a frame.
* `Opener.reordering` — what it does with frames in any order.
-/

namespace SealedStream

open Bytes

/-! ## The frames of a sender -/

namespace Sender

/-- The sheet whose frame was written, and the frame: what the sink has taken, without the tag. -/
def frame? (e : Log.Entry Sender Act (Option (Except StreamFault Unit))) : Option (Sheet × Bytes) :=
  match e.act with
  | .write sheet =>
    if e.before.written < e.after.written then
      some (sheet, e.after.sink.taken.drop
        (e.before.sink.taken.length + e.before.tag?.elim 0 fun _ => Tag.length))
    else none
  | _ => none

/-- The frames that were written, in order, with their sheets. -/
def frames (entries : List (Log.Entry Sender Act (Option (Except StreamFault Unit)))) :
    List (Sheet × Bytes) :=
  entries.filterMap frame?

variable {o : Overflow} {suite : Suite} {key : Key} {s t : Sender} {act : Act} {acts : List Act}
  {r : Option (Except StreamFault Unit)}

/-- An act writes no frame, or the one that its sheet makes. -/
theorem Effect.frame?_cases (effect : Effect o suite s act r t) :
    t.frameLength = s.frameLength ∧
      (frame? ⟨s, act, r, t⟩ = none ∧ t.written = s.written ∧ (t.key? = s.key? ∨ t.key? = none) ∨
        ∃ key sheet, s.key? = some key ∧ sheet.Suits s.frameLength ∧
          frame? ⟨s, act, r, t⟩ = some (sheet,
            Frame.sealWhole suite key s.written sheet.payload sheet.padding sheet.last) ∧
          t.written = s.written + 1 ∧ t.key? = s.key?) := by
  cases effect with
  | @wrote sheet _ _ ends =>
    cases ends with
    | written outcome =>
      cases outcome with
      | wiped | misfit | blank | excess => exact ⟨rfl, .inl ⟨by simp [frame?], rfl, .inl rfl⟩⟩
      | failed => exact ⟨rfl, .inl ⟨by simp [frame?, wipe], rfl, .inr rfl⟩⟩
      | @taken key sink kept suits shown fits takes =>
        refine ⟨rfl, .inr ⟨key, sheet, kept, suits, ?_, rfl, rfl⟩⟩
        have taken : sink.taken = s.sink.taken ++ handed suite key sheet s := Sink.taken_of_take takes
        have tag : (s.tag?.elim [] Vector.toList).length = s.tag?.elim 0 fun _ => Tag.length := by
          cases s.tag? <;> simp [Tag.length]
        simp only [frame?, counted, taken, handed, Nat.lt_add_one, if_true]
        rw [← tag, ← List.length_append, ← List.append_assoc, List.drop_left]
    | refused | passed => exact ⟨rfl, .inl ⟨by simp [frame?], rfl, .inl rfl⟩⟩
  | stopped => exact ⟨rfl, .inl ⟨by simp [frame?], rfl, .inl rfl⟩⟩
  | barred | flushed | limited => exact ⟨rfl, .inl ⟨rfl, rfl, .inl rfl⟩⟩
  | stuck | wiped => exact ⟨rfl, .inl ⟨rfl, rfl, .inr rfl⟩⟩

/-- Without the keys no frame is written. -/
theorem frames_of_wiped (gone : s.Wiped) : frames (log o suite acts s) = [] := by
  induction acts generalizing s with
  | nil => rfl
  | cons act acts ih =>
    have effect := effect_perform o suite act s
    rw [frames, log, log_cons, List.filterMap_cons]
    obtain ⟨-, ⟨none, -, kept⟩ | ⟨key, -, kept, -⟩⟩ := effect.frame?_cases
    · rw [none]
      exact ih (kept.elim (·.trans gone) id)
    · cases gone.symm.trans kept

/-- The frames of a sender are those of sheets that suit it, numbered in a row. -/
theorem of_mem_frames (kept : s.key? = some key) {n : Nat} {sheet : Sheet} {frame : Bytes}
    (there : (frames (log o suite acts s))[n]? = some (sheet, frame)) :
    sheet.Suits s.frameLength ∧ frame =
      Frame.sealWhole suite key (s.written + n) sheet.payload sheet.padding sheet.last := by
  induction acts generalizing s n with
  | nil => simp [frames] at there
  | cons act acts ih =>
    have effect := effect_perform o suite act s
    rw [frames, log, log_cons, List.filterMap_cons] at there
    obtain ⟨same, ⟨none, written, kept' | gone⟩ | ⟨key', sheet', known, suits, some, written, kept'⟩⟩ :=
      effect.frame?_cases
    · rw [none] at there
      rw [← same, ← written]
      exact ih (kept'.trans kept) there
    · rw [none] at there
      have nothing : frames (log o suite acts (act.perform o suite s).2) = [] := frames_of_wiped gone
      rw [frames] at nothing
      simp [nothing] at there
    · obtain rfl := Option.some.inj (kept.symm.trans known)
      rw [some] at there
      cases n with
      | zero =>
        cases there
        exact ⟨suits, rfl⟩
      | succ n =>
        have later := ih (kept'.trans kept) there
        rwa [same, written, Nat.add_right_comm, Nat.add_assoc] at later

/-- The frames of a stream from its beginning are numbered from zero, and no payload is too long. -/
theorem getElem_frames {opens : Bool} {ticket : Ticket} {capacity frameLength : Nat} {sink : Sink}
    (begins : begin suite opens ticket capacity frameLength sink = .ok s)
    (n : Fin (frames (log o suite acts s)).length) :
    let (sheet, frame) := (frames (log o suite acts s))[n]
    sheet.payload.length ≤ Frame.maxPayload ∧ frame =
      Frame.sealWhole suite (suite.frameKey ticket.side ticket.stream ticket.key) n sheet.payload
        sheet.padding sheet.last := by
  obtain ⟨kept, -, same_length, written, -⟩ := of_begin begins
  have there : (frames (log o suite acts s))[n.val]? = some (frames (log o suite acts s))[n] :=
    List.getElem?_eq_getElem n.isLt
  obtain ⟨suits, frame⟩ := of_mem_frames kept there
  rw [written, Nat.zero_add] at frame
  refine ⟨?_, frame⟩
  have short := suits.le.trans (same_length.trans_le (demand_of_begin begins).2)
  unfold Sheet.length Frame.minLength Frame.maxLength at short
  unfold Frame.maxPayload
  omega

end Sender

/-- The header of no frame opens under another number than its own, among those that an opener of the
frames may try: on a frame that comes again, these are all that it has not seen, and some of them may
come after the last frame. -/
def Frame.Distinct (suite : Suite) (key : Key) (frames : List (Sender.Sheet × Bytes)) : Prop :=
  ∀ n : Fin frames.length, ∀ m < frames.length + SeenWindow.size, m ≠ n →
    Frame.openPart? suite key m .header (frames[n].2.take Frame.sealedHeaderLength) = none

instance (suite : Suite) (key : Key) (frames : List (Sender.Sheet × Bytes)) :
    Decidable (Frame.Distinct suite key frames) :=
  inferInstanceAs (Decidable (∀ n : Fin frames.length, ∀ m < frames.length + SeenWindow.size, m ≠ n →
    Frame.openPart? suite key m .header (frames[n].2.take Frame.sealedHeaderLength) = none))

/-! ## A frame -/

namespace Opener

/-- Opens a frame. If that fails, the opener is as before. -/
def receive (suite : Suite) (frame : Bytes) (o : Opener) : Except StreamFault Frame × Opener :=
  match o.frame suite frame with
  | .ok (f, o') => (.ok f, o')
  | .error fault => (.error fault, o)

variable {suite : Suite} {o : Opener} {key : Key} {sealed : Bytes} {numbers : List Nat} {n : Nat}
  {header : Frame.Header}

theorem headerUnder_sealPart (valid : header.Valid) :
    headerUnder suite key n (Frame.sealPart suite key n .header header.encode) = .ok (some header) := by
  simp only [headerUnder, Frame.openPart?_eq_some_iff.2 rfl,
    Frame.Header.decode_encode valid.version valid.short]
  rfl

/-- The order of the numbers does not matter for a header that opens under one number only. -/
theorem tryNumbers_eq (opens : headerUnder suite key n sealed = .ok (some header))
    (only : ∀ m ∈ numbers, m ≠ n → Frame.openPart? suite key m .header sealed = none) :
    tryNumbers suite key sealed numbers =
      if n ∈ numbers then .ok (n, header) else .error .forged := by
  induction numbers with
  | nil => rfl
  | cons m numbers ih =>
    rw [List.forall_mem_cons] at only
    rw [tryNumbers]
    by_cases same : m = n
    · subst same
      rw [opens, if_pos List.mem_cons_self]
      rfl
    · have closed : headerUnder suite key m sealed = .ok none := by
        rw [headerUnder, only.1 same]
        rfl
      rw [closed]
      refine (ih only.2).trans (if_congr ?_ rfl rfl)
      simp [Ne.symm same]

/-- A frame is opened if its number may be tried, and nothing happens otherwise. -/
theorem receive_sealWhole {payload : Bytes} {padding : Nat} {last : Bool} (kept : o.key? = some key)
    (short : payload.length ≤ Frame.maxPayload)
    (only : ∀ m ∈ o.window.unseen, m ≠ n → Frame.openPart? suite key m .header
      ((Frame.sealWhole suite key n payload padding last).take Frame.sealedHeaderLength) = none) :
    (n ∉ o.window.unseen →
      o.receive suite (Frame.sealWhole suite key n payload padding last) = (.error .forged, o)) ∧
    ∀ window entered, n ∈ o.window.unseen → o.window.mark? n = some (window, entered) →
      o.receive suite (Frame.sealWhole suite key n payload padding last) =
        (.ok ⟨n, payload, last⟩, { o with window }) := by
  let header := Frame.headerOf payload last
  let sealedHeader := Frame.sealPart suite key n .header header.encode
  let sealedBody := Frame.sealPart suite key n .body (payload ++ zeros padding)
  have announced : header.payload.toNat = payload.length := Frame.payload_headerOf short
  have wide : sealedHeader.length = Frame.sealedHeaderLength := Frame.length_sealHeader
  have front : (sealedHeader ++ sealedBody).take Frame.sealedHeaderLength = sealedHeader :=
    List.take_left' wide
  have rest : (sealedHeader ++ sealedBody).drop Frame.sealedHeaderLength = sealedBody :=
    List.drop_left' wide
  have long : ¬ (sealedHeader ++ sealedBody).length < Frame.sealedHeaderLength := by
    rw [List.length_append, wide]
    omega
  rw [show Frame.sealWhole suite key n payload padding last = sealedHeader ++ sealedBody from rfl]
    at only ⊢
  rw [front] at only
  have tried := tryNumbers_eq (headerUnder_sealPart (Frame.valid_headerOf short)) only
  have opened : o.frame suite (sealedHeader ++ sealedBody) =
      if n ∈ o.window.unseen then o.body suite n header sealedBody else .error .forged := by
    simp only [frame, if_neg long, front, rest, Opener.header, headerKey, kept, wide, pure_bind,
      ne_eq, not_true_eq_false, if_false]
    rw [show tryNumbers suite key sealedHeader o.window.unseen = _ from tried]
    split <;> rfl
  constructor
  · intro absent
    rw [receive, opened, if_neg absent]
  · intro window entered there marks
    have opens : o.body suite n header sealedBody = .ok (⟨n, payload, last⟩, { o with window }) :=
      (body_eq_ok_iff kept marks).2 ⟨⟨padding, rfl⟩, announced.symm, rfl, rfl, rfl⟩
    rw [receive, opened, if_pos there, opens]

/-! ## Frames in any order -/

/-- Frames that are given to an opener one after the other, with what comes of each. -/
abbrev log (suite : Suite) (frames : List (Sender.Sheet × Bytes)) (order : List (Fin frames.length))
    (o : Opener) : List (Log.Entry Opener (Fin frames.length) (Except StreamFault Frame)) :=
  SealedStream.log (fun n o => o.receive suite frames[n].2) order o

section Runs

variable {count : Nat}

/-- Some frame of the number was opened. -/
def Opened (past : List (Log.Entry Opener (Fin count) (Except StreamFault Frame))) (n : Nat) : Prop :=
  ∃ e ∈ past, e.act = n ∧ ∃ f, e.report = .ok f

/-- The frame of the number was not opened before, and is near enough to the first one that was not. -/
structure Admitted (past : List (Log.Entry Opener (Fin count) (Except StreamFault Frame))) (n : Nat) :
    Prop where
  fresh : ¬ Opened past n
  near : ∃ least, IsLeast {m | ¬ Opened past m} least ∧ n < least + SeenWindow.size

/-- The window of an opener tells what it has opened. -/
structure Tracks (key : Key) (past : List (Log.Entry Opener (Fin count) (Except StreamFault Frame)))
    (o : Opener) : Prop where
  kept : o.key? = some key
  seen_iff : ∀ m, o.window.Seen m ↔ Opened past m

namespace Tracks

variable {past : List (Log.Entry Opener (Fin count) (Except StreamFault Frame))}
  (tracks : Tracks key past o)
include tracks

theorem isLeast_base : IsLeast {m | ¬ Opened past m} o.window.base := by
  have isLeast := o.window.isLeast_base
  simpa only [tracks.seen_iff] using isLeast

/-- The window does not move past the last frame. -/
theorem base_le : o.window.base ≤ count := by
  by_contra beyond
  obtain ⟨e, -, same, -⟩ := (tracks.seen_iff count).1 (.inl (by omega))
  exact absurd e.act.isLt (by omega)

theorem whole (bound : count < 2 ^ 63) : o.window.Whole := by
  have le := tracks.base_le
  simp only [SeenWindow.Whole, SeenWindow.size, Count.top]
  omega

theorem admitted_iff (bound : count < 2 ^ 63) {n : Nat} : Admitted past n ↔ n ∈ o.window.unseen := by
  rw [SeenWindow.mem_unseen_iff (tracks.whole bound), tracks.seen_iff]
  constructor
  · rintro ⟨fresh, least, isLeast, near⟩
    obtain rfl := isLeast.unique tracks.isLeast_base
    exact ⟨fresh, near⟩
  · rintro ⟨fresh, near⟩
    exact ⟨fresh, _, tracks.isLeast_base, near⟩

end Tracks

theorem opened_append_iff {past : List (Log.Entry Opener (Fin count) (Except StreamFault Frame))}
    {e : Log.Entry Opener (Fin count) (Except StreamFault Frame)} {m : Nat} :
    Opened (past ++ [e]) m ↔ Opened past m ∨ e.act = m ∧ ∃ f, e.report = .ok f := by
  simp [Opened, or_and_right, exists_or]

end Runs

/-- How an opener answers a frame after some others. -/
structure Answers (frames : List (Sender.Sheet × Bytes))
    (past : List (Log.Entry Opener (Fin frames.length) (Except StreamFault Frame)))
    (e : Log.Entry Opener (Fin frames.length) (Except StreamFault Frame)) : Prop where
  opened_iff : e.report = .ok ⟨e.act, frames[e.act].1.payload, frames[e.act].1.last⟩ ↔
    Admitted past e.act
  refused : ¬ Admitted past e.act → e.report = .error .forged ∧ e.after = e.before

section Frames

variable {frames : List (Sender.Sheet × Bytes)} {order : List (Fin frames.length)}
  {past : List (Log.Entry Opener (Fin frames.length) (Except StreamFault Frame))}
  {e : Log.Entry Opener (Fin frames.length) (Except StreamFault Frame)}

/-- A frame is answered as it should be, and the window still tells what was opened. -/
theorem Tracks.step (tracks : Tracks key past e.before) (mem : e ∈ log suite frames order o)
    (bound : frames.length < 2 ^ 63) (distinct : Frame.Distinct suite key frames)
    (whole : ∀ n : Fin frames.length, frames[n].1.payload.length ≤ Frame.maxPayload ∧
      frames[n].2 = Frame.sealWhole suite key n frames[n].1.payload frames[n].1.padding
        frames[n].1.last) :
    Answers frames past e ∧ Tracks key (past ++ [e]) e.after := by
  obtain ⟨-, report, after⟩ := of_mem_log mem
  obtain ⟨short, frame⟩ := whole e.act
  have only : ∀ m ∈ e.before.window.unseen, m ≠ e.act → Frame.openPart? suite key m .header
      (frames[e.act].2.take Frame.sealedHeaderLength) = none := by
    intro m unseen ne
    have near := ((SeenWindow.mem_unseen_iff (tracks.whole bound)).1 unseen).2
    have le := tracks.base_le
    exact distinct e.act m (by omega) ne
  rw [frame] at only report after
  obtain ⟨refuses, opens⟩ := receive_sealWhole tracks.kept short only
  by_cases admitted : Admitted past e.act
  · have unseen := (tracks.admitted_iff bound).1 admitted
    obtain ⟨covers, fresh, -⟩ := SeenWindow.mem_unseen.1 unseen
    obtain ⟨⟨window, entered⟩, marks⟩ : ∃ x, e.before.window.mark? e.act = some x :=
      Option.ne_none_iff_exists'.1 fun none => SeenWindow.mark?_eq_none_iff.1 none ⟨covers, fresh⟩
    rw [opens window entered unseen marks] at report after
    refine ⟨⟨iff_of_true report admitted, fun not => absurd admitted not⟩, ?_, fun m => ?_⟩
    · rw [after]
      exact tracks.kept
    · rw [after, SeenWindow.seen_of_mark?_iff marks (.inr (.inl (tracks.whole bound))), tracks.seen_iff,
        opened_append_iff, report]
      simp [eq_comm]
  · rw [refuses (mt (tracks.admitted_iff bound).2 admitted)] at report after
    refine ⟨⟨iff_of_false (by simp [report]) admitted, fun _ => ⟨report, after⟩⟩, ?_, fun m => ?_⟩
    · rw [after]
      exact tracks.kept
    · rw [after, tracks.seen_iff, opened_append_iff, report]
      simp

end Frames

/-- An opener is given the frames of a sender of the other side on the same stream, in any order and
any number of times. It opens a frame just if it did not do so before and the frame is near enough to
the first one that is missing. Any other frame is refused as forged and changes nothing.

The frames are to be distinct also under the numbers that follow the last of them within the span of a
window, under which no frame was sealed: a frame that comes again after many others is tried under them. -/
theorem reordering {overflow : Overflow} {ticket ticket' : Ticket} {opens : Bool}
    {capacity frameLength : Nat} {sink : Sink} {s : Sender}
    (begins : Sender.begin suite opens ticket capacity frameLength sink = .ok s)
    (acts : List Sender.Act) (same_key : ticket'.key = ticket.key)
    (stream : ticket'.stream = ticket.stream) (side : ticket'.side = ticket.side.other) :
    let frames := Sender.frames (Sender.log overflow suite acts s)
    frames.length < 2 ^ 63 →
    Frame.Distinct suite (suite.frameKey ticket.side ticket.stream ticket.key) frames →
    ∀ (order : List (Fin frames.length)) front e rest,
      log suite frames order (.ofTicket suite ticket') = front ++ e :: rest → Answers frames front e := by
  intro frames bound distinct order front e rest eq
  let key := suite.frameKey ticket.side ticket.stream ticket.key
  let o : Opener := .ofTicket suite ticket'
  have start : Tracks key ([] : List (Log.Entry Opener (Fin frames.length) _)) o := by
    refine ⟨?_, fun m => ?_⟩
    · simp only [o, ofTicket, same_key, stream, side, Side.other_other, key]
    · simp [o, ofTicket, SeenWindow.Seen, SeenWindow.empty, Opened]
  have step (past : List (Log.Entry Opener (Fin frames.length) (Except StreamFault Frame))) :
      ∀ e ∈ log suite frames order o, Tracks key past e.before →
        Answers frames past e ∧ Tracks key (past ++ [e]) e.after :=
    fun e mem tracks => tracks.step mem bound distinct (Sender.getElem_frames begins)
  have tracks := history_of_log (Tracks key) start (fun past e mem t => (step past e mem t).2) eq
  have mem : e ∈ log suite frames order o := by
    rw [show log suite frames order o = front ++ e :: rest from eq]
    simp
  exact (step front e mem tracks).1

/-- The last of 33 frames is refused until the first one was opened, and neither is opened twice. -/
theorem reordering_of_far_frames :
    let ticket : Ticket := ⟨⟨7, "tcp"⟩, .wiped, 5, .bob⟩
    let ticket' : Ticket := ⟨⟨1, "tcp"⟩, .wiped, 5, .alice⟩
    let s : Sender := ⟨some (numbered.frameKey .bob 5 .wiped),
      some (numbered.tag (numbered.tagKey .bob .wiped) 5), 37, 0, 1984, .unlimited⟩
    let frames := Sender.frames
      (Sender.log .stops numbered (List.replicate 33 (.write ⟨[9], 0, false⟩)) s)
    let first : Fin frames.length := ⟨0, by decide +kernel⟩
    let last : Fin frames.length := ⟨32, by decide +kernel⟩
    let order := [last, first, last, first]
    let entries := log numbered frames order (.ofTicket numbered ticket')
    Sender.begin numbered true ticket 2000 37 .unlimited = .ok s ∧ frames.length < 2 ^ 63 ∧
      Frame.Distinct numbered (numbered.frameKey .bob 5 .wiped) frames ∧
      entries.map (·.report) = [.error .forged, .ok ⟨0, [9], false⟩, .ok ⟨32, [9], false⟩,
        .error .forged] ∧
      ∀ front e rest, entries = front ++ e :: rest → Answers frames front e := by
  intro ticket ticket' s frames first last order entries
  have begins : Sender.begin numbered true ticket 2000 37 .unlimited = .ok s := rfl
  have count : frames.length < 2 ^ 63 := by decide +kernel
  have distinct : Frame.Distinct numbered (numbered.frameKey .bob 5 .wiped) frames := by decide +kernel
  exact ⟨begins, count, distinct, by decide +kernel, reordering begins _
    (rfl : ticket'.key = ticket.key) rfl rfl count distinct order⟩

end Opener

end SealedStream
