import SealedStream.Count

/-!
# Windows of seen numbers

A window remembers which numbers of a sequence were seen, as long as they arrive nearly in order.
Everything below its base was seen; of the `SeenWindow.size` numbers from the base on, one bit each
tells; nothing above was seen yet. The base is never seen itself: it moves past every seen number.

The incoming streams of a secret and the frames of a stream are both tracked this way.

## Main definitions

* `SeenWindow.Seen`, `SeenWindow.Covers` — the numbers seen, and those a window can tell apart.
* `SeenWindow.unseen` — the numbers a window covers that were not seen.
* `SeenWindow.mark?` — the window with one more number, and the numbers it covers for the first
  time.
-/

namespace SealedStream

/-- The numbers seen so far, given by the least number that was not and the bits above it. -/
structure SeenWindow where
  base : Nat
  bits : BitVec 32
  base_le : base ≤ Count.top
  base_clear : bits.getLsbD 0 = false
deriving DecidableEq, Repr

namespace SeenWindow

/-- The numbers that a window covers. -/
def size : Nat := 32

/-- The window that has seen nothing. -/
def empty : SeenWindow := ⟨0, 0#32, by decide, rfl⟩

instance : Inhabited SeenWindow := ⟨empty⟩

/-- How many bits are set from the lowest up to the first clear one. -/
def run (bits : BitVec 32) : Nat := ((List.range size).takeWhile bits.getLsbD).length

theorem getLsbD_run (bits : BitVec 32) : bits.getLsbD (run bits) = false := by
  by_cases full : run bits < size
  · have at_run : (List.range size)[run bits]? = some (run bits) := by simp [full]
    have split := List.takeWhile_append_dropWhile (p := bits.getLsbD) (l := List.range size)
    rw [← split, List.getElem?_append_right (by exact Nat.le_refl _)] at at_run
    simp only [run, Nat.sub_self] at at_run
    have first := List.head?_dropWhile_not bits.getLsbD (List.range size)
    rw [← List.head?_eq_getElem?] at at_run
    rw [at_run] at first
    simpa [run] using first
  · exact BitVec.getLsbD_of_ge _ _ (Nat.not_lt.1 full)

/-- The window with the given parts, its base moved past the numbers that were seen. The base never
moves past the greatest count. -/
def ofParts (base : Nat) (bits : BitVec 32) : SeenWindow where
  base := Count.plus base (run bits)
  bits := bits >>> run bits
  base_le := Count.plus_le_top _ _
  base_clear := by rw [BitVec.getLsbD_ushiftRight, Nat.add_zero]; exact getLsbD_run bits

/-- The window tells whether `n` was seen, and may still take it. -/
def Covers (w : SeenWindow) (n : Nat) : Prop := w.base ≤ n ∧ n - w.base < size

/-- The number was seen, or lies below the base. -/
def Seen (w : SeenWindow) (n : Nat) : Prop := n < w.base ∨ w.bits.getLsbD (n - w.base) = true

instance (w : SeenWindow) (n : Nat) : Decidable (w.Covers n) :=
  inferInstanceAs (Decidable (_ ∧ _))

instance (w : SeenWindow) (n : Nat) : Decidable (w.Seen n) :=
  inferInstanceAs (Decidable (_ ∨ _))

/-- The numbers that the window covers and has not seen, in ascending order. -/
def unseen (w : SeenWindow) : List Nat :=
  (((List.range size).filter fun i => !w.bits.getLsbD i).map (w.base + ·)).filter (· ≤ Count.top)

/-- The first number above the window. -/
def reach (w : SeenWindow) : Nat := Count.plus w.base size

/-- The window after `n` was seen, and the numbers it covers now and did not before, in ascending
order. A number that was seen before or is not covered is refused. -/
def mark? (w : SeenWindow) (n : Nat) : Option (SeenWindow × List Nat) :=
  if w.Covers n ∧ ¬ w.Seen n then
    let marked := ofParts w.base (w.bits ||| BitVec.twoPow 32 (n - w.base))
    some (marked, List.range' w.reach (marked.reach - w.reach))
  else none

end SeenWindow

end SealedStream
