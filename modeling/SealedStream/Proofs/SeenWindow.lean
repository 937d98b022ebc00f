import Mathlib.Data.List.Nodup
import Mathlib.Data.List.TakeWhile
import Mathlib.Order.Bounds.Basic
import SealedStream.SeenWindow

/-!
# What a window has seen

Marking a number adds it to the seen ones and loses none of them, short of the greatest count. What
was not seen is then what was not seen before, with the numbers that entered.

## Main definitions

* `SeenWindow.Whole` — the greatest count does not cut the window off.

## Main statements

* `SeenWindow.of_mark?`, `SeenWindow.unseen_of_mark?` — what a mark does.
* `SeenWindow.mem_unseen_of_mark?` — the numbers that a window may take after a mark.
* `SeenWindow.mark?_base` — marking the numbers in order moves the base by one each time.
-/

namespace SealedStream.SeenWindow

variable {w w' : SeenWindow} {n m : Nat} {entered : List Nat}

@[simp] theorem base_ofParts (base : Nat) (bits : BitVec 32) :
    (ofParts base bits).base = Count.plus base (run bits) := rfl

@[simp] theorem bits_ofParts (base : Nat) (bits : BitVec 32) :
    (ofParts base bits).bits = bits >>> run bits := rfl

/-- The bits below the first clear one are set. -/
theorem getLsbD_of_lt_run {bits : BitVec 32} {i : Nat} (lt : i < run bits) :
    bits.getLsbD i = true := by
  have at_run : ((List.range size).takeWhile bits.getLsbD)[i]? = some i := by
    obtain ⟨rest, eq⟩ := List.takeWhile_prefix (l := List.range size) bits.getLsbD
    have bound : i < (List.range size).length :=
      Nat.lt_of_lt_of_le lt (List.takeWhile_prefix (l := List.range size) bits.getLsbD).length_le
    have there : (List.range size)[i]? = some i := by
      rw [List.getElem?_range (by simpa using bound)]
    rw [← eq, List.getElem?_append_left lt] at there
    exact there
  exact List.mem_takeWhile_imp (List.mem_of_getElem? at_run)

/-- No part of the window is cut off: what it covers, and the number above that, are counts. -/
def Whole (w : SeenWindow) : Prop := w.base + size ≤ Count.top

instance (w : SeenWindow) : Decidable w.Whole := inferInstanceAs (Decidable (_ ≤ _))

theorem run_le_size (bits : BitVec 32) : run bits ≤ size := by
  have le := (List.takeWhile_prefix (l := List.range size) bits.getLsbD).length_le
  rwa [List.length_range] at le

theorem seen_ofParts_iff {base : Nat} {bits : BitVec 32}
    (room : m < Count.top ∨ base + run bits ≤ Count.top) :
    (ofParts base bits).Seen m ↔ m < base ∨ bits.getLsbD (m - base) = true := by
  simp only [Seen, base_ofParts, bits_ofParts, Count.plus, BitVec.getLsbD_ushiftRight]
  by_cases below : m < base
  · simp [below]
    omega
  by_cases inside : m - base < run bits
  · simp [getLsbD_of_lt_run inside]
    omega
  · rw [show run bits + (m - min (base + run bits) Count.top) = m - base by omega]
    simp [below]
    omega

/-- Only numbers that the window covers and has not seen are taken. -/
theorem mark?_eq_some_iff : w.mark? n = some (w', entered) ↔
    (w.Covers n ∧ ¬ w.Seen n) ∧ ofParts w.base (w.bits ||| BitVec.twoPow 32 (n - w.base)) = w' ∧
      List.range' w.reach (w'.reach - w.reach) = entered := by
  unfold mark?
  split
  · rename_i fresh
    rw [Option.some.injEq, Prod.mk.injEq]
    exact ⟨fun ⟨eq, eq'⟩ => ⟨fresh, eq, eq ▸ eq'⟩, fun ⟨_, eq, eq'⟩ => ⟨eq, eq ▸ eq'⟩⟩
  · rename_i stale
    simp [stale]

theorem mark?_eq_none_iff : w.mark? n = none ↔ ¬ (w.Covers n ∧ ¬ w.Seen n) := by
  simp [mark?]

/-- A mark adds its number. The greatest count needs a base that is not held back. -/
theorem seen_of_mark?_iff (marks : w.mark? n = some (w', entered))
    (room : m < Count.top ∨ w.Whole ∨ w'.base < Count.top) : w'.Seen m ↔ w.Seen m ∨ m = n := by
  obtain ⟨⟨⟨ge, near⟩, -⟩, rfl, -⟩ := mark?_eq_some_iff.1 marks
  have room : m < Count.top ∨
      w.base + run (w.bits ||| BitVec.twoPow 32 (n - w.base)) ≤ Count.top := by
    have le := run_le_size (w.bits ||| BitVec.twoPow 32 (n - w.base))
    simp only [Whole, base_ofParts, Count.plus] at room
    omega
  rw [seen_ofParts_iff room, Seen, BitVec.getLsbD_or, BitVec.getLsbD_twoPow]
  by_cases below : m < w.base
  · simp [below]
  by_cases same : m = n
  · subst same
    exact iff_of_true (.inr (by simp [show m - w.base < 32 from near])) (.inr rfl)
  · have apart : n - w.base ≠ m - w.base := by omega
    simp [below, same, apart]

/-- A number is marked at most once, and what was seen stays seen. -/
theorem of_mark? (h : w.mark? n = some (w', entered)) :
    w.Covers n ∧ ¬ w.Seen n ∧ ∀ m < Count.top, w'.Seen m ↔ w.Seen m ∨ m = n := by
  obtain ⟨⟨covers, fresh⟩, -⟩ := mark?_eq_some_iff.1 h
  exact ⟨covers, fresh, fun m lt => seen_of_mark?_iff h (.inl lt)⟩

theorem mem_unseen : n ∈ w.unseen ↔ w.Covers n ∧ ¬ w.Seen n ∧ n ≤ Count.top := by
  simp only [unseen, List.mem_filter, List.mem_map, List.mem_range, Bool.not_eq_true',
    decide_eq_true_eq, Covers, Seen]
  constructor
  · rintro ⟨⟨i, ⟨lt, clear⟩, rfl⟩, le⟩
    simp [clear, le]
    exact lt
  · rintro ⟨⟨ge, near⟩, fresh, le⟩
    refine ⟨⟨n - w.base, ⟨near, ?_⟩, by omega⟩, le⟩
    simpa using fun set => fresh (.inr set)

/-- A number that a window has not seen after a mark, it had not seen before, or the number entered the
window with the mark. -/
theorem unseen_of_mark? (marks : w.mark? n = some (w', entered)) (lt : m < Count.top)
    (covers : w'.Covers m) (fresh : ¬ w'.Seen m) :
    m ≠ n ∧ (w.Covers m ∧ ¬ w.Seen m ∨ m ∈ entered) := by
  obtain ⟨-, -, seen⟩ := of_mark? marks
  rw [seen m lt, not_or] at fresh
  refine ⟨fresh.2, ?_⟩
  have ge : w.base ≤ m := by
    by_contra below
    exact fresh.1 (.inl (by omega))
  by_cases near : m - w.base < size
  · exact .inl ⟨⟨ge, near⟩, fresh.1⟩
  · obtain ⟨-, within⟩ := covers
    obtain ⟨-, -, rfl⟩ := mark?_eq_some_iff.1 marks
    rw [List.mem_range'_1]
    simp only [reach, Count.plus]
    omega

theorem not_seen_base (w : SeenWindow) : ¬ w.Seen w.base := by
  rw [Seen, Nat.sub_self, w.base_clear]
  simp

/-- The base is the first number that was not seen. -/
theorem isLeast_base (w : SeenWindow) : IsLeast {n | ¬ w.Seen n} w.base :=
  ⟨w.not_seen_base, fun _ fresh => Nat.le_of_not_lt fun below => fresh (.inl below)⟩

theorem base_le_of_mark? (marks : w.mark? n = some (w', entered)) : w.base ≤ w'.base := by
  obtain ⟨-, rfl, -⟩ := mark?_eq_some_iff.1 marks
  have le := w.base_le
  simp only [base_ofParts, Count.plus]
  omega

/-- A window that is not cut off may take what it has not seen, up to its size. -/
theorem mem_unseen_iff (whole : w.Whole) : n ∈ w.unseen ↔ ¬ w.Seen n ∧ n < w.base + size := by
  unfold Whole at whole
  rw [mem_unseen]
  constructor
  · rintro ⟨⟨ge, near⟩, fresh, -⟩
    exact ⟨fresh, by omega⟩
  · rintro ⟨fresh, near⟩
    have ge := w.isLeast_base.2 fresh
    exact ⟨⟨ge, by omega⟩, fresh, by omega⟩

theorem nodup_unseen (w : SeenWindow) : w.unseen.Nodup := by
  have distinct : (((List.range size).filter fun i => !w.bits.getLsbD i).map (w.base + ·)).Nodup :=
    (List.nodup_range.filter _).map fun i j (same : w.base + i = w.base + j) => Nat.add_left_cancel same
  exact distinct.filter _

/-- A window that takes a number may take the others afterwards, and those that entered. -/
theorem mem_unseen_of_mark? (marks : w.mark? n = some (w', entered)) (whole : w.Whole)
    (whole' : w'.Whole) : m ∈ w'.unseen ↔ m ∈ w.unseen ∧ m ≠ n ∨ m ∈ entered := by
  have seen : w'.Seen m ↔ w.Seen m ∨ m = n := seen_of_mark?_iff marks (.inr (.inl whole))
  have base := base_le_of_mark? marks
  obtain ⟨⟨⟨ge, near⟩, -⟩, -, rfl⟩ := mark?_eq_some_iff.1 marks
  unfold Whole at whole whole'
  rw [mem_unseen, mem_unseen, seen, List.mem_range'_1, reach, reach, Count.plus_eq_add whole,
    Count.plus_eq_add whole']
  unfold Covers
  constructor
  · rintro ⟨⟨above, below⟩, fresh, le⟩
    rw [not_or] at fresh
    by_cases old : m - w.base < size
    · exact .inl ⟨⟨⟨base.trans above, old⟩, fresh.1, le⟩, fresh.2⟩
    · exact .inr (by omega)
  · have above (fresh : ¬ w'.Seen m) : w'.base ≤ m := w'.isLeast_base.2 fresh
    rintro (⟨⟨⟨-, below⟩, fresh, le⟩, other⟩ | ⟨low, high⟩)
    · have fresh' : ¬ (w.Seen m ∨ m = n) := not_or.2 ⟨fresh, other⟩
      have above := above (mt seen.1 fresh')
      exact ⟨⟨above, by omega⟩, fresh', le⟩
    · have fresh' : ¬ (w.Seen m ∨ m = n) := by
        rintro ((lt | bit) | rfl)
        · omega
        · rw [BitVec.getLsbD_of_ge _ _ (show 32 ≤ m - w.base by unfold size at low; omega)] at bit
          cases bit
        · omega
      have above := above (mt seen.1 fresh')
      exact ⟨⟨above, by omega⟩, fresh', by omega⟩

/-- A window that has seen an initial run of numbers takes the next one. -/
theorem mark?_base (clear : w.bits = 0) (room : w.base < Count.top) :
    ∃ w' entered, w.mark? w.base = some (w', entered) ∧ w'.base = w.base + 1 ∧ w'.bits = 0 := by
  have fresh : w.Covers w.base ∧ ¬ w.Seen w.base := by
    simp [Covers, Seen, clear, size]
  have single : run (0 ||| BitVec.twoPow 32 0) = 1 := by decide
  refine ⟨_, _, if_pos fresh, ?_, ?_⟩
  · rw [Nat.sub_self, clear, base_ofParts, single]
    exact Count.plus_eq_add room
  · rw [Nat.sub_self, clear, bits_ofParts, single]
    decide

end SealedStream.SeenWindow
