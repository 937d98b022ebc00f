import SealedStream.Proofs.Stream.Written

/-!
# What a submission does

The length of a frame is reckoned in 64 bits before it is judged. As long as it is a count, a submission
is a write. If it is not, the program stops, or the low bits are judged in its place: then the frame is
refused, or it passes for an empty last one and leaves no trace, or the program stops while it is sealed.
Nothing is written in any of these cases, and the sender stays as it was.

## Main definitions

* `Sender.Sheet.Traceless` — what is reckoned for the sheet is the length of an empty last frame.
* `Sender.Submission` — the ways in which a submission ends.
* `Sender.submitAll` — submissions in a row, all of which are accepted.

## Main statements

* `Sender.submit_eq_write` — a submission of which the length is a count is a write.
* `Sender.submission` — how any submission ends.
* `Sender.writeAll_of_submitAll` — submissions in a row are writes, unless the first leaves no trace.
-/

namespace SealedStream.Sender

open SealedStream.Action

variable {o : Overflow} {suite : Suite} {sheet : Sheet} {s t : Sender} {key : Key}
  {fault : StreamFault}

/-! ## The length -/

/-- Only the sum counts, not how it comes about. -/
theorem Sheet.reckon_eq : sheet.reckon o = o.count sheet.length := by
  have sum : sheet.length = Frame.minLength + (sheet.payload.length + sheet.padding) := by
    rw [Sheet.length, Nat.add_assoc]
  rw [reckon, sum]
  generalize sheet.payload.length + sheet.padding = body
  cases o with
  | stops =>
    rcases Nat.lt_or_ge Count.top body with exceeds | fits
    · rw [Overflow.count_stops_eq_none exceeds, Overflow.count_stops_eq_none (by omega)]
      rfl
    · rw [Overflow.count_eq_some fits]
      rfl
  | wraps =>
    simp only [Overflow.count_wraps, Option.bind_eq_bind, Option.bind_some, Count.wrap, Option.some.injEq]
    omega

/-- What is reckoned for the sheet is the length of an empty last frame. -/
def Sheet.Traceless (o : Overflow) (sheet : Sheet) : Prop :=
  sheet.last = true ∧ sheet.reckon o = some Frame.minLength

instance (sheet : Sheet) : Decidable (sheet.Traceless o) := inferInstanceAs (Decidable (_ ∧ _))

/-- A sheet of which the length is a count is what it seems to be. -/
theorem Sheet.traceless_iff_blank (count : sheet.length ≤ Count.top) :
    sheet.Traceless o ↔ sheet.Blank := by
  rw [Traceless, reckon_eq, Overflow.count_eq_some count, Option.some.injEq, Blank]

theorem Sheet.Blank.traceless (blank : sheet.Blank) : sheet.Traceless o :=
  (traceless_iff_blank (blank.2 ▸ by decide)).2 blank

/-- If the program stops at a length that is too great, only an empty last frame leaves no trace. -/
theorem Sheet.traceless_stops_iff : sheet.Traceless .stops ↔ sheet.Blank := by
  rcases Nat.lt_or_ge Count.top sheet.length with exceeds | count
  · rw [Traceless, reckon_eq, Overflow.count_stops_eq_none exceeds]
    refine iff_of_false nofun fun blank => ?_
    rw [blank.2] at exceeds
    exact absurd exceeds (by decide)
  · exact traceless_iff_blank count

/-! ## One submission -/

theorem ends_write_of_judge_error (kept : s.key? = some key)
    (judged : s.judge sheet.last sheet.length = .error fault) :
    (write suite sheet).Ends s (.error fault) s := by
  simp only [write, ends_get_bind_iff, kept, judged]
  exact ends_throw_bind_iff.2 ⟨rfl, rfl⟩

theorem ends_write_of_judge_false (kept : s.key? = some key)
    (judged : s.judge sheet.last sheet.length = .ok false) : (write suite sheet).Ends s (.ok ()) s := by
  simp only [write, ends_get_bind_iff, kept, judged]
  exact ends_pure_iff.2 ⟨rfl, rfl⟩

/-- A submission of which the length is a count is a write. -/
theorem submit_eq_write (count : sheet.length ≤ Count.top) :
    submit o suite sheet s = some ((write suite sheet).toExcept s) := by
  unfold submit
  cases kept : s.key? with
  | none =>
    rw [if_pos (show s.Wiped from kept)]
    have ends : (write suite sheet).Ends s (.error .wiped) s := by
      simp only [write, ends_get_bind_iff, kept, ends_throw_iff, and_self]
    exact congrArg some ends.symm
  | some key =>
    rw [if_neg (by simp [Wiped, kept]), Sheet.reckon_eq, Overflow.count_eq_some count]
    cases judged : s.judge sheet.last sheet.length with
    | error fault =>
      simp only [Option.bind_eq_bind, Option.bind_some, judged]
      exact congrArg some (ends_write_of_judge_error kept judged).symm
    | ok written =>
      cases written with
      | false =>
        simp only [Option.bind_eq_bind, Option.bind_some, judged]
        exact congrArg some (ends_write_of_judge_false kept judged).symm
      | true => simp [judged]

/-- The ways in which a submission ends. If the length is no count, nothing changes. -/
inductive Submission (o : Overflow) (suite : Suite) (sheet : Sheet) (s : Sender) :
    Option (Except StreamFault Unit × Sender) → Prop where
  | written {r : Except StreamFault Unit} {t : Sender} (outcome : Outcome suite sheet s r t)
    (count : s.Wiped ∨ sheet.length ≤ Count.top) : Submission o suite sheet s (some (r, t))
  | refused {key : Key} (kept : s.key? = some key) (exceeds : Count.top < sheet.length)
    (wraps : o = .wraps) {fault : StreamFault} (unlike : ∀ reason, fault ≠ .io reason)
    (judged : s.judge sheet.last (Count.wrap sheet.length) = .error fault) :
    Submission o suite sheet s (some (.error fault, s))
  | passed {key : Key} (kept : s.key? = some key) (exceeds : Count.top < sheet.length)
    (wraps : o = .wraps) (fits : Frame.minLength ≤ s.frameLength) (pending : s.tag? ≠ none)
    (traceless : sheet.Traceless o) (judged : s.judge sheet.last (Count.wrap sheet.length) = .ok false) :
    Submission o suite sheet s (some (.ok (), s))
  | stopped {key : Key} (kept : s.key? = some key) (exceeds : Count.top < sheet.length)
    (unsealed : o = .wraps → s.judge sheet.last (Count.wrap sheet.length) = .ok true) :
    Submission o suite sheet s none

/-- Every submission ends in one of these ways. -/
theorem submission (o : Overflow) (suite : Suite) (sheet : Sheet) (s : Sender) :
    Submission o suite sheet s (submit o suite sheet s) := by
  rcases (Nat.lt_or_ge Count.top sheet.length).symm with count | exceeds
  · rw [submit_eq_write count]
    exact .written (outcome_of_write (ends_toExcept _ s)) (.inr count)
  unfold submit
  cases kept : s.key? with
  | none =>
    rw [if_pos (show s.Wiped from kept)]
    exact .written (.wiped kept) (.inl kept)
  | some key =>
    rw [if_neg (by simp [Wiped, kept]), Sheet.reckon_eq]
    cases o with
    | stops =>
      rw [Overflow.count_stops_eq_none exceeds]
      exact .stopped kept exceeds nofun
    | wraps =>
      have low : Count.wrap sheet.length ≠ sheet.length := by
        unfold Count.wrap Count.top at *
        omega
      have reckoned : sheet.reckon .wraps = some (Count.wrap sheet.length) := by
        rw [Sheet.reckon_eq, Overflow.count_wraps]
      rw [Overflow.count_wraps]
      rcases judge_cases sheet.last (Count.wrap sheet.length) s with ⟨-, judged⟩ |
        ⟨suits, ⟨pending, last, empty, judged⟩ | ⟨-, ⟨-, judged⟩ | ⟨-, judged⟩⟩⟩
      · simp only [Option.bind_eq_bind, Option.bind_some, judged]
        exact .refused kept exceeds rfl nofun judged
      · simp only [Option.bind_eq_bind, Option.bind_some, judged]
        exact .passed kept exceeds rfl (by omega) pending ⟨last, empty ▸ reckoned⟩ judged
      · simp only [Option.bind_eq_bind, Option.bind_some, judged]
        exact .refused kept exceeds rfl nofun judged
      · simp only [Option.bind_eq_bind, Option.bind_some, judged, if_neg low]
        exact .stopped kept exceeds fun _ => judged

/-! ## Submissions in a row -/

/-- Submits some sheets, as long as each is accepted. -/
def submitAll (o : Overflow) (suite : Suite) : List Sheet → Sender → Option Sender
  | [], s => some s
  | sheet :: sheets, s =>
    match submit o suite sheet s with
    | some (.ok (), s) => submitAll o suite sheets s
    | _ => none

/-- Sheets that are all accepted are all written, unless the first one leaves no trace. -/
theorem writeAll_of_submitAll {sheets : List Sheet} (kept : ¬ s.Wiped)
    (shown : s.tag? = none ∨ ∀ x ∈ sheets.head?, ¬ x.Traceless o)
    (submits : submitAll o suite sheets s = some t) : (writeAll suite sheets).Ends s (.ok ()) t := by
  induction sheets generalizing s with
  | nil =>
    obtain rfl := Option.some.inj submits
    exact ends_pure_iff.2 ⟨rfl, rfl⟩
  | cons x xs ih =>
    have shown' : s.tag? = none ∨ ¬ x.Traceless o := shown.imp_right fun shown => shown x rfl
    rw [submitAll] at submits
    have ends := submission o suite x s
    split at submits
    · rename_i u first
      rw [first] at ends
      generalize answer_eq : (.ok () : Except StreamFault Unit) = answer at ends
      cases ends with
      | passed _ _ _ _ pending traceless => exact (shown'.elim pending (· traceless)).elim
      | refused => cases answer_eq
      | written outcome count =>
        have write : (write suite x).Ends s answer u := by
          rw [submit_eq_write (count.resolve_left kept)] at first
          exact (Option.some.inj first).trans (answer_eq ▸ rfl)
        cases outcome with
        | wiped | misfit | excess | failed => cases answer_eq
        | blank _ _ pending blank => exact (shown'.elim pending (· blank.traceless)).elim
        | @taken _ sink kept' =>
          have kept : ¬ (counted x sink s).Wiped := by simp [Wiped, counted, kept']
          exact ends_bind_ok_iff.2 ⟨(), _, write, ih kept (.inl rfl) submits⟩
    · cases submits

end SealedStream.Sender
