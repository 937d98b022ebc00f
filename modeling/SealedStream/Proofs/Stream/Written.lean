import Mathlib.Algebra.GroupWithZero.Nat
import SealedStream.Proofs.Stream.Writing

/-!
# What was written

As long as a sender has its key, its sink holds the sealed frames of the sheets that were taken, in
order and numbered in a row, and the tag before the first of them. Whatever happened in between is
told by these sheets alone.

## Main definitions

* `Sender.framesOf` — the sealed frames that some sheets make.
* `Sender.Wrote` — a sender has written the frames of some sheets.

## Main statements

* `Sender.Wrote.append` — one after the other.
* `Sender.wrote_of_writeAll` — writes that all go well.
-/

namespace SealedStream.Sender

open SealedStream.Action

/-- The sealed frames that some sheets make, numbered from `number` on. -/
def framesOf (suite : Suite) (key : Key) : (number : Nat) → List Sheet → Bytes
  | _, [] => []
  | number, sheet :: sheets =>
    Frame.sealWhole suite key number sheet.payload sheet.padding sheet.last ++
      framesOf suite key (number + 1) sheets

variable {suite : Suite} {key : Key} {s t u : Sender} {sheets xs ys : List Sheet} {number : Nat}

@[simp] theorem framesOf_nil : framesOf suite key number [] = [] := rfl

theorem framesOf_append : framesOf suite key number (xs ++ ys) =
    framesOf suite key number xs ++ framesOf suite key (number + xs.length) ys := by
  induction xs generalizing number with
  | nil => rfl
  | cons x xs ih =>
    rw [List.cons_append, framesOf, framesOf, ih, List.append_assoc, List.length_cons,
      Nat.add_right_comm, Nat.add_assoc]

theorem length_framesOf :
    (framesOf suite key number sheets).length = (sheets.map Sheet.length).sum := by
  induction sheets generalizing number with
  | nil => rfl
  | cons x xs ih =>
    rw [framesOf, List.length_append, Frame.length_sealWhole, ih, List.map_cons, List.sum_cons]
    rfl

theorem minLength_mul_length_le :
    Frame.minLength * sheets.length ≤ (framesOf suite key number sheets).length := by
  induction sheets generalizing number with
  | nil => exact Nat.zero_le _
  | cons x xs ih =>
    have rest := @ih (number + 1)
    rw [framesOf, List.length_append, Frame.length_sealWhole, List.length_cons, Nat.mul_succ]
    omega

/-- The sender `t` comes from `s` by writing the frames of some sheets, and the tag before them if it
was still to be written. -/
structure Wrote (suite : Suite) (key : Key) (s : Sender) (sheets : List Sheet) (t : Sender) : Prop where
  kept : t.key? = some key
  frameLength : t.frameLength = s.frameLength
  tag : t.tag? = if sheets = [] then s.tag? else none
  taken : t.sink.taken = s.sink.taken ++
    ((if sheets = [] then [] else s.tag?.elim [] Vector.toList) ++
      framesOf suite key s.written sheets)
  capacity : t.capacity + (sheets.map Sheet.length).sum = s.capacity
  written : t.written = s.written + sheets.length
  suits : ∀ x ∈ sheets, x.Suits s.frameLength

/-- Whatever becomes of the sink, nothing was written if it has taken nothing. -/
theorem wrote_nil (kept : s.key? = some key) {sink : Sink} (same : sink.taken = s.sink.taken) :
    Wrote suite key s [] { s with sink } where
  kept := kept
  frameLength := rfl
  tag := rfl
  taken := by simp [same]
  capacity := rfl
  written := rfl
  suits := by simp

/-- A frame that the sink took was written. -/
theorem wrote_counted {sheet : Sheet} {sink : Sink} (kept : s.key? = some key)
    (suits : sheet.Suits s.frameLength) (fits : sheet.length ≤ s.capacity)
    (takes : (Sink.take (handed suite key sheet s)).Ends s.sink (.ok ()) sink) :
    Wrote suite key s [sheet] (counted sheet sink s) where
  kept := kept
  frameLength := rfl
  tag := rfl
  taken := by simpa [framesOf, handed, counted] using Sink.taken_of_take takes
  capacity := by simpa [counted] using Nat.sub_add_cancel fits
  written := rfl
  suits := by simpa using suits

theorem Wrote.append (first : Wrote suite key s xs t) (second : Wrote suite key t ys u) :
    Wrote suite key s (xs ++ ys) u where
  kept := second.kept
  frameLength := second.frameLength.trans first.frameLength
  tag := by
    rw [second.tag, first.tag]
    by_cases none : xs = [] <;> simp [none]
  taken := by
    rw [second.taken, first.taken, first.tag, first.written, framesOf_append]
    by_cases none : xs = [] <;> simp [none]
  capacity := by
    rw [List.map_append, List.sum_append, ← first.capacity, ← second.capacity]
    omega
  written := by rw [second.written, first.written, List.length_append, Nat.add_assoc]
  suits := by
    intro x mem
    rcases List.mem_append.1 mem with mem | mem
    · exact first.suits x mem
    · exact first.frameLength ▸ second.suits x mem

theorem Wrote.minLength_mul_le (wrote : Wrote suite key s sheets t) :
    Frame.minLength * sheets.length ≤ s.capacity :=
  calc Frame.minLength * sheets.length
    _ ≤ (framesOf suite key s.written sheets).length := minLength_mul_length_le
    _ = (sheets.map Sheet.length).sum := length_framesOf
    _ ≤ s.capacity := Nat.le_of_add_left_le (Nat.le_of_eq wrote.capacity)

/-- Sheets that are all accepted are all written, unless the first one leaves no trace. -/
theorem wrote_of_writeAll (kept : s.key? = some key)
    (shown : s.tag? = none ∨ ∀ x ∈ sheets.head?, ¬ x.Blank)
    (ends : (writeAll suite sheets).Ends s (.ok ()) t) : Wrote suite key s sheets t := by
  induction sheets generalizing s with
  | nil =>
    obtain ⟨-, rfl⟩ := ends_pure_iff.1 ends
    exact wrote_nil kept rfl
  | cons x xs ih =>
    obtain ⟨_, u, first, rest⟩ := ends_bind_ok_iff.1 ends
    generalize answer_eq : (.ok () : Except StreamFault Unit) = answer at first
    cases outcome_of_write first with
    | wiped | misfit | excess | failed => cases answer_eq
    | blank _ _ pending blank =>
      rcases shown with plain | shown
      · exact absurd plain pending
      · exact absurd blank (shown x rfl)
    | taken kept' suits _ fits takes =>
      obtain rfl := Option.some.inj (kept.symm.trans kept')
      have wrote := wrote_counted kept suits fits takes
      exact wrote.append (ih wrote.kept (.inl rfl) rest)

end SealedStream.Sender
