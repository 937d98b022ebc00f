import Mathlib.Tactic.ByContra
import SealedStream.Proofs.Actions
import SealedStream.Stream.Sender

/-!
# What a write does

A write is refused and changes nothing, or hands one sealed frame to the sink. If the sink takes it,
the sender counts the frame; if not, the keys are gone.

## Main definitions

* `Sender.writeAll` — frames written in a row.
* `Sender.Sheet.Suits` — a sheet makes a frame of a length that may stand in its place.
* `Sender.Outcome` — the ways in which a write ends.

## Main statements

* `Sender.outcome_of_write`, `Sender.write_cases` — how a write ends.
* `Sender.flush_cases` — how a flush ends.
* `Sender.ends_write_ok_iff` — when an answer takes a frame.
* `Sender.taken_of_opening` — the first bytes of a stream of our own are its tag.
-/

namespace SealedStream

open SealedStream.Action

/-- The sink after it took some more bytes. -/
def Sink.add (bs : Bytes) (s : Sink) : Sink := { s with taken := s.taken ++ bs }

/-- A sink that takes bytes without a fault has taken them all. -/
theorem Sink.taken_of_take {bs : Bytes} {s t : Sink} (takes : (Sink.take bs).Ends s (.ok ()) t) :
    t.taken = s.taken ++ bs := by
  simp only [Ends, toExcept, take] at takes
  cases limit : s.room with
  | none =>
    simp only [limit, Prod.mk.injEq] at takes
    rw [← takes.2]
  | some room =>
    obtain ⟨left, fault⟩ := room
    simp only [limit] at takes
    split at takes
    · rename_i _ t' fits
      split at fits
      · cases takes
        cases fits
        rename_i le
        simp [List.take_of_length_le le]
      · cases fits
    · cases takes

/-- A sink that breaks has taken a part of the bytes. -/
theorem Sink.prefix_of_take {bs : Bytes} {s t : Sink} {fault : IoFault}
    (breaks : (Sink.take bs).Ends s (.error fault) t) :
    ∃ part, t.taken = s.taken ++ part ∧ part <+: bs := by
  simp only [Ends, toExcept, take] at breaks
  cases limit : s.room with
  | none => simp [limit] at breaks
  | some room =>
    obtain ⟨left, reason⟩ := room
    simp only [limit] at breaks
    split at breaks
    · cases breaks
    · rename_i _ t' full
      split at full
      · cases full
      · cases full
        cases breaks
        exact ⟨_, rfl, List.take_prefix left bs⟩

theorem Sink.ends_flush_iff {s t : Sink} {r : Except IoFault Unit} :
    Sink.flush.Ends s r t ↔ t = s ∧ r = s.stuck.elim (.ok ()) .error := by
  simp only [Sink.flush, ends_get_bind_iff]
  cases s.stuck <;> simp [and_comm]

theorem demandFrameLength_eq_ok_iff {frameLength : Nat} : demandFrameLength frameLength = .ok () ↔
    Frame.minLength ≤ frameLength ∧ frameLength ≤ Frame.maxLength := by
  unfold demandFrameLength
  split
  · rename_i valid
    exact iff_of_true rfl valid
  · rename_i invalid
    exact iff_of_false nofun invalid

namespace Sender

/-- The frame is not longer than the frame length, and not shorter unless it is the last. -/
structure Sheet.Suits (frameLength : Nat) (sheet : Sheet) : Prop where
  le : sheet.length ≤ frameLength
  full : sheet.last = false → sheet.length = frameLength

/-- The sheet makes an empty last frame. -/
def Sheet.Blank (sheet : Sheet) : Prop := sheet.last = true ∧ sheet.length = Frame.minLength

instance (sheet : Sheet) : Decidable sheet.Blank := inferInstanceAs (Decidable (_ ∧ _))

/-- Writes a frame for each sheet, as long as none is refused. -/
def writeAll (suite : Suite) : List Sheet → Action StreamFault Sender Unit
  | [] => pure ()
  | sheet :: sheets => do
    write suite sheet
    writeAll suite sheets

/-- What a sender hands to the sink for a sheet: the frame, after the tag if it is not yet written. -/
def handed (suite : Suite) (key : Key) (sheet : Sheet) (s : Sender) : Bytes :=
  (s.tag?.elim [] Vector.toList) ++
    Frame.sealWhole suite key s.written sheet.payload sheet.padding sheet.last

/-- The sender after the sink took a frame. -/
def counted (sheet : Sheet) (sink : Sink) (s : Sender) : Sender :=
  { s with
    tag? := none
    written := s.written + 1
    capacity := s.capacity - sheet.length
    sink }

/-- The ways in which a write ends. The first four change nothing; in the others the frame goes to the
sink, which takes it or breaks. -/
inductive Outcome (suite : Suite) (sheet : Sheet) (s : Sender) :
    Except StreamFault Unit → Sender → Prop where
  | wiped (gone : s.key? = none) : Outcome suite sheet s (.error .wiped) s
  | misfit {key : Key} (kept : s.key? = some key) (unfit : ¬ sheet.Suits s.frameLength) :
    Outcome suite sheet s (.error (.misfit sheet.length s.frameLength)) s
  | blank {key : Key} (kept : s.key? = some key) (suits : sheet.Suits s.frameLength)
      (pending : s.tag? ≠ none) (blank : sheet.Blank) : Outcome suite sheet s (.ok ()) s
  | excess {key : Key} (kept : s.key? = some key) (suits : sheet.Suits s.frameLength)
      (shown : s.tag? = none ∨ ¬ sheet.Blank) (short : s.capacity < sheet.length) :
    Outcome suite sheet s (.error (.overCapacity sheet.length s.capacity)) s
  | taken {key : Key} {sink : Sink} (kept : s.key? = some key) (suits : sheet.Suits s.frameLength)
      (shown : s.tag? = none ∨ ¬ sheet.Blank) (fits : sheet.length ≤ s.capacity)
      (takes : (Sink.take (handed suite key sheet s)).Ends s.sink (.ok ()) sink) :
    Outcome suite sheet s (.ok ()) (counted sheet sink s)
  | failed {key : Key} {fault : IoFault} {sink : Sink} (kept : s.key? = some key)
      (suits : sheet.Suits s.frameLength) (shown : s.tag? = none ∨ ¬ sheet.Blank)
      (fits : sheet.length ≤ s.capacity)
      (breaks : (Sink.take (handed suite key sheet s)).Ends s.sink (.error fault) sink) :
    Outcome suite sheet s (.error (.io fault)) (wipe { s with sink })

variable {suite : Suite} {sheet : Sheet} {s t : Sender} {r : Except StreamFault Unit}

theorem ends_put_iff {bs : Bytes} :
    (put bs).Ends s r t ↔
      (∃ sink, (Sink.take bs).Ends s.sink (.ok ()) sink ∧ r = .ok () ∧ t = { s with sink }) ∨
        ∃ fault sink, (Sink.take bs).Ends s.sink (.error fault) sink ∧ r = .error (.io fault) ∧
          t = wipe { s with sink } := by
  simp only [Ends, toExcept, put]
  cases taken : Sink.take bs s.sink <;> grind

theorem misfit_iff {frameLength : Nat} :
    (frameLength < sheet.length ∨ (¬ sheet.last ∧ sheet.length < frameLength)) ↔
      ¬ sheet.Suits frameLength := by
  constructor
  · rintro (long | ⟨more, short⟩) ⟨le, full⟩
    · omega
    · exact Nat.ne_of_lt short (full (by simpa using more))
  · intro misfit
    by_contra fits
    refine misfit ⟨by omega, ?_⟩
    intro more
    simp only [more, Bool.false_eq_true, not_false_eq_true, true_and] at fits
    omega

/-! ### The checks -/

/-- How a frame of some length is judged, in the order of the checks. -/
theorem judge_cases (last : Bool) (length : Nat) (s : Sender) :
    (s.frameLength < length ∨ (¬ last ∧ length < s.frameLength)) ∧
        s.judge last length = .error (.misfit length s.frameLength) ∨
      ¬(s.frameLength < length ∨ (¬ last ∧ length < s.frameLength)) ∧
        (s.tag? ≠ none ∧ last ∧ length = Frame.minLength ∧ s.judge last length = .ok false ∨
          (s.tag? = none ∨ ¬(last ∧ length = Frame.minLength)) ∧
            (s.capacity < length ∧ s.judge last length = .error (.overCapacity length s.capacity) ∨
              length ≤ s.capacity ∧ s.judge last length = .ok true)) := by
  unfold judge
  split
  · exact .inl ⟨‹_›, rfl⟩
  refine .inr ⟨‹_›, ?_⟩
  split
  · rename_i blank
    exact .inl ⟨Option.isSome_iff_ne_none.1 blank.1, blank.2.1, blank.2.2, rfl⟩
  rename_i shown
  refine .inr ⟨?_, ?_⟩
  · rw [Classical.or_iff_not_imp_left]
    exact fun pending blank => shown ⟨Option.isSome_iff_ne_none.2 pending, blank⟩
  split
  · exact .inl ⟨‹_›, rfl⟩
  · exact .inr ⟨Nat.le_of_not_lt ‹_›, rfl⟩

/-- A write ends in one of these ways. -/
theorem outcome_of_write (h : (write suite sheet).Ends s r t) : Outcome suite sheet s r t := by
  simp only [write, ends_get_bind_iff] at h
  cases kept : s.key? with
  | none =>
    simp only [kept, ends_throw_iff] at h
    obtain ⟨rfl, rfl⟩ := h
    exact .wiped kept
  | some key =>
    simp only [kept] at h
    rcases judge_cases sheet.last sheet.length s with ⟨unfit, judged⟩ | ⟨suits, judged⟩
    · rw [judged] at h
      obtain ⟨rfl, rfl⟩ := ends_throw_bind_iff.1 h
      exact .misfit kept (misfit_iff.1 unfit)
    rw [misfit_iff, Classical.not_not] at suits
    rcases judged with ⟨pending, last, empty, judged⟩ | ⟨shown, ⟨short, judged⟩ | ⟨fits, judged⟩⟩
    · rw [judged] at h
      obtain ⟨rfl, rfl⟩ := ends_pure_iff.1 h
      exact .blank kept suits pending ⟨last, empty⟩
    · rw [judged] at h
      obtain ⟨rfl, rfl⟩ := ends_throw_bind_iff.1 h
      exact .excess kept suits shown short
    rw [judged] at h
    replace h := ends_pure_bind_iff.1 h
    rw [if_pos rfl] at h
    rcases ends_bind_iff.1 h with ⟨fault, putting, rfl⟩ | ⟨_, u, putting, h⟩
    · rcases ends_put_iff.1 putting with ⟨sink, -, fine, -⟩ | ⟨fault', sink, breaks, eq, rfl⟩
      · cases fine
      · cases eq
        exact .failed kept suits shown fits breaks
    · obtain ⟨rfl, rfl⟩ := ends_modify_iff.1 h
      rcases ends_put_iff.1 putting with ⟨sink, takes, -, rfl⟩ | ⟨fault', sink, -, eq, -⟩
      · exact .taken kept suits shown fits takes
      · cases eq

/-- A write changes nothing, or its frame goes to the sink. -/
theorem write_cases (h : (write suite sheet).Ends s r t) :
    (t = s ∧ (r = .ok () → s.tag? ≠ none) ∧ ∀ fault, r ≠ .error (.io fault)) ∨
      ∃ key, s.key? = some key ∧ sheet.Suits s.frameLength ∧ sheet.length ≤ s.capacity ∧
        ((∃ sink, (Sink.take (handed suite key sheet s)).Ends s.sink (.ok ()) sink ∧ r = .ok () ∧
            t = counted sheet sink s) ∨
          ∃ fault sink, (Sink.take (handed suite key sheet s)).Ends s.sink (.error fault) sink ∧
            r = .error (.io fault) ∧ t = wipe { s with sink }) := by
  cases outcome_of_write h with
  | wiped | misfit | excess => exact .inl ⟨rfl, by simp, by simp⟩
  | blank _ _ pending => exact .inl ⟨rfl, fun _ => pending, by simp⟩
  | taken kept suits _ fits takes => exact .inr ⟨_, kept, suits, fits, .inl ⟨_, takes, rfl, rfl⟩⟩
  | failed kept suits _ fits breaks =>
    exact .inr ⟨_, kept, suits, fits, .inr ⟨_, _, breaks, rfl, rfl⟩⟩

/-- An answer to an unlimited sink takes a frame if it suits and the capacity is enough. -/
theorem ends_write_ok_iff (plain : s.tag? = none) (unlimited : s.sink.room = none) :
    (write suite sheet).Ends s (.ok ()) t ↔
      ∃ key, s.key? = some key ∧ sheet.Suits s.frameLength ∧ sheet.length ≤ s.capacity ∧
        t = counted sheet (s.sink.add (handed suite key sheet s)) s := by
  have take (bs : Bytes) (r : Except IoFault Unit) (sink : Sink) :
      (Sink.take bs).Ends s.sink r sink ↔
        r = .ok () ∧ sink = s.sink.add bs := by
    simp [Ends, toExcept, Sink.take, Sink.add, unlimited, eq_comm]
  constructor
  · intro h
    rcases write_cases h with
      ⟨-, skipped, -⟩ | ⟨key, kept, suits, fits, ⟨sink, taken, -, rfl⟩ | failed⟩
    · exact absurd plain (skipped rfl)
    · obtain ⟨-, rfl⟩ := (take _ _ _).1 taken
      exact ⟨key, kept, suits, fits, rfl⟩
    · obtain ⟨_, _, -, eq, -⟩ := failed
      cases eq
  · rintro ⟨key, kept, suits, fits, rfl⟩
    have fits' := Nat.not_lt.2 fits
    have suits' := Classical.not_not.2 suits
    rw [← misfit_iff] at suits'
    have judged : s.judge sheet.last sheet.length = .ok true := by
      rw [judge, if_neg suits', if_neg (by simp [plain]), if_neg fits']
    simp only [write, ends_get_bind_iff, kept]
    rw [judged]
    exact ends_pure_bind_iff.2 (ends_bind_iff.2 (.inr ⟨(), _,
      ends_put_iff.2 (.inl ⟨_, (take _ _ _).2 ⟨rfl, rfl⟩, rfl, rfl⟩), ends_modify_iff.2 ⟨rfl, rfl⟩⟩))

/-- A flush leaves the bytes alone. It is refused without the keys, and wipes them if the sink fails. -/
theorem flush_cases (h : flush.Ends s r t) :
    (s.key? = none ∧ r = .error .wiped ∧ t = s) ∨
      s.key? ≠ none ∧ (r = .ok () ∧ t = s ∨ ∃ fault, r = .error (.io fault) ∧ t = s.wipe) := by
  unfold flush at h
  rw [ends_get_bind_iff] at h
  cases kept : s.key? with
  | none =>
    simp only [kept, ends_throw_iff] at h
    exact .inl ⟨rfl, h⟩
  | some key =>
    refine .inr ⟨by simp, ?_⟩
    simp only [kept] at h
    simp only [Ends, toExcept] at h
    have flushes := ends_toExcept Sink.flush s.sink
    unfold toExcept at flushes
    cases flushed : Sink.flush s.sink with
    | ok _ sink =>
      simp only [flushed] at flushes h
      obtain ⟨rfl, -⟩ := Sink.ends_flush_iff.1 flushes
      obtain ⟨rfl, rfl⟩ := Prod.mk.inj h
      exact .inl ⟨rfl, rfl⟩
    | error fault sink =>
      simp only [flushed] at flushes h
      obtain ⟨rfl, -⟩ := Sink.ends_flush_iff.1 flushes
      obtain ⟨rfl, rfl⟩ := Prod.mk.inj h
      exact .inr ⟨fault, rfl, rfl⟩

/-! ## Beginnings -/

variable {ticket : Ticket} {capacity frameLength : Nat} {sink : Sink}

/-- A stream of our own begins with its frame key and its tag, if there is room for the tag. -/
theorem opening_eq_ok_iff : opening suite ticket capacity frameLength sink = .ok s ↔
    demandFrameLength frameLength = .ok () ∧ 16 ≤ capacity ∧
      s = ⟨some (suite.frameKey ticket.side ticket.stream ticket.key),
        some (suite.tag (suite.tagKey ticket.side ticket.key) ticket.stream), frameLength, 0,
        capacity - 16, sink⟩ := by
  unfold opening
  cases demandFrameLength frameLength with
  | error fault => exact iff_of_false nofun nofun
  | ok _ =>
    by_cases short : capacity < 16
    · rw [if_pos short]
      exact iff_of_false nofun fun ⟨_, enough, _⟩ => absurd enough (Nat.not_le.2 short)
    · rw [if_neg short]
      constructor
      · rintro ⟨⟩
        exact ⟨rfl, Nat.le_of_not_lt short, rfl⟩
      · rintro ⟨-, -, rfl⟩
        rfl

theorem of_opening (begins : opening suite ticket capacity frameLength sink = .ok s) :
    s = ⟨some (suite.frameKey ticket.side ticket.stream ticket.key),
      some (suite.tag (suite.tagKey ticket.side ticket.key) ticket.stream), frameLength, 0,
      capacity - 16, sink⟩ :=
  (opening_eq_ok_iff.1 begins).2.2

/-- An answer begins with the frame key of the stream. -/
theorem answering_eq_ok_iff : answering suite ticket capacity frameLength sink = .ok s ↔
    demandFrameLength frameLength = .ok () ∧
      s = ⟨some (suite.frameKey ticket.side ticket.stream ticket.key), none, frameLength, 0, capacity,
        sink⟩ := by
  unfold answering
  cases demandFrameLength frameLength with
  | error fault => exact iff_of_false nofun nofun
  | ok _ =>
    constructor
    · rintro ⟨⟩
      exact ⟨rfl, rfl⟩
    · rintro ⟨-, rfl⟩
      rfl

theorem of_answering (begins : answering suite ticket capacity frameLength sink = .ok s) :
    s = ⟨some (suite.frameKey ticket.side ticket.stream ticket.key), none, frameLength, 0, capacity,
      sink⟩ :=
  (answering_eq_ok_iff.1 begins).2

/-- The first frame of a stream of our own follows its tag. -/
theorem taken_of_opening (begins : opening suite ticket capacity frameLength sink = .ok s)
    (writes : (write suite sheet).Ends s (.ok ()) t) (written : t ≠ s) :
    ∃ frame, t.sink.taken = sink.taken ++
      ((suite.tag (suite.tagKey ticket.side ticket.key) ticket.stream).toList ++ frame) := by
  rcases write_cases writes with ⟨same, -⟩ | ⟨key, -, -, -, ⟨taken, takes, -, rfl⟩ | failed⟩
  · exact absurd same written
  · have eq := Sink.taken_of_take takes
    rw [of_opening begins] at eq ⊢
    exact ⟨_, eq⟩
  · obtain ⟨_, _, -, fault, -⟩ := failed
    cases fault

end Sender

end SealedStream
