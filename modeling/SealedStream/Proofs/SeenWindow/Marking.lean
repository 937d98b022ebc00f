import SealedStream.Proofs.Log
import SealedStream.Proofs.SeenWindow

/-!
# Windows as sets

Numbers are marked one after the other. Whichever parts a window is made of, it stands for the set of
the numbers that it has seen: a mark adds one number to it, and the base, the unseen numbers and those
that enter can all be told from the set.

Where a window reaches the greatest count, its base stays there although its bits move on. Then the
greatest count itself is forgotten as soon as all others were seen. No other number ever is.

## Main definitions

* `SeenWindow.mark`, `SeenWindow.log` — a number is marked, or several one after the other.
* `SeenWindow.Faithful` — what a window shows is what the set of its numbers says.
* `SeenWindow.Marks` — what a mark does to the set.
* `SeenWindow.TakesOnce` — no number is taken a second time.

## Main statements

* `SeenWindow.implements_set` — a window that is not cut off implements a set.
* `SeenWindow.taken_again_iff` — when a number is taken a second time.
-/

namespace SealedStream.SeenWindow

/-- Marks a number and tells which numbers entered. If the number is refused, the window stays as it
is. -/
def mark (n : Nat) (w : SeenWindow) : Option (List Nat) × SeenWindow :=
  match w.mark? n with
  | some (w', entered) => (some entered, w')
  | none => (none, w)

/-- Numbers that are marked one after the other. -/
abbrev log (numbers : List Nat) (w : SeenWindow) :
    List (Log.Entry SeenWindow Nat (Option (List Nat))) :=
  SealedStream.log mark numbers w

/-- Some mark of the number was not refused. -/
def Taken (past : List (Log.Entry SeenWindow Nat (Option (List Nat)))) (n : Nat) : Prop :=
  ∃ e ∈ past, e.act = n ∧ e.report ≠ none

variable {w : SeenWindow} {n m : Nat} {numbers : List Nat} {entered : List Nat}
  {past : List (Log.Entry SeenWindow Nat (Option (List Nat)))}
  {e : Log.Entry SeenWindow Nat (Option (List Nat))}

theorem taken_append_singleton :
    Taken (past ++ [e]) m ↔ Taken past m ∨ e.act = m ∧ e.report ≠ none := by
  simp [Taken, or_and_right, exists_or]

/-- An entry tells of a mark that was refused or went well. -/
theorem mark?_cases (mem : e ∈ log numbers w) :
    e.report = none ∧ e.before.mark? e.act = none ∧ e.after = e.before ∨
      ∃ entered, e.report = some entered ∧ e.before.mark? e.act = some (e.after, entered) := by
  obtain ⟨-, report, after⟩ := of_mem_log mem
  cases marks : e.before.mark? e.act with
  | none =>
    simp only [mark, marks] at report after
    exact .inl ⟨report, rfl, after⟩
  | some x =>
    simp only [mark, marks] at report after
    exact .inr ⟨_, report, by rw [after]⟩

/-! ## What a window shows -/

/-- The base is the least number that was not seen, the unseen numbers are told in ascending order,
and the parts of the window give it back. -/
structure Faithful (w : SeenWindow) : Prop where
  base : IsLeast {n | ¬ w.Seen n} w.base
  unseen : w.unseen = (List.range' w.base size).filter (¬ w.Seen ·)
  parts : ofParts w.base w.bits = w

theorem run_eq_zero {bits : BitVec 32} (clear : bits.getLsbD 0 = false) : run bits = 0 := by
  by_contra some
  rw [getLsbD_of_lt_run (Nat.pos_of_ne_zero some)] at clear
  cases clear

theorem ofParts_parts (w : SeenWindow) : ofParts w.base w.bits = w := by
  obtain ⟨base, bits, le, clear⟩ := w
  have still := run_eq_zero clear
  simp only [ofParts, still, BitVec.ushiftRight_zero, mk.injEq, and_true]
  exact Count.plus_eq_add le

theorem unseen_eq_filter (whole : w.Whole) :
    w.unseen = (List.range' w.base size).filter (¬ w.Seen ·) := by
  unfold Whole at whole
  rw [unseen, List.range'_eq_map_range, List.filter_map, List.filter_map, List.filter_filter]
  congr 1
  refine List.filter_congr fun i mem => ?_
  have lt := List.mem_range.1 mem
  simp [Seen, show w.base + i ≤ Count.top by omega]

theorem faithful (whole : w.Whole) : w.Faithful :=
  ⟨w.isLeast_base, unseen_eq_filter whole, w.ofParts_parts⟩

/-! ## What a mark does -/

/-- A number is taken just if it was not seen and is not too far from the base. Then it is seen, like
all those before it, and the numbers are told that the window covers now and did not before. -/
structure Marks (e : Log.Entry SeenWindow Nat (Option (List Nat))) : Prop where
  taken_iff : e.report ≠ none ↔ ¬ e.before.Seen e.act ∧ e.act < e.before.base + size
  seen_iff : e.report ≠ none → ∀ m, e.after.Seen m ↔ e.before.Seen m ∨ m = e.act
  entered : ∀ entered, e.report = some entered →
    entered = (List.range' e.after.base size).filter (¬ e.before.Covers ·)
  refused : e.report = none → e.after = e.before

theorem covers_and_not_seen_iff :
    w.Covers n ∧ ¬ w.Seen n ↔ ¬ w.Seen n ∧ n < w.base + size := by
  constructor
  · rintro ⟨⟨ge, near⟩, fresh⟩
    exact ⟨fresh, by omega⟩
  · rintro ⟨fresh, near⟩
    have ge := w.isLeast_base.2 fresh
    exact ⟨⟨ge, by omega⟩, fresh⟩

/-- The numbers between the old and the new reach are those that are newly covered. -/
theorem entered_eq_filter {w' : SeenWindow} (marks : w.mark? n = some (w', entered))
    (whole : w.Whole) (whole' : w'.Whole) :
    entered = (List.range' w'.base size).filter (¬ w.Covers ·) := by
  obtain ⟨-, moved, rfl⟩ := mark?_eq_some_iff.1 marks
  have shift := run_le_size (w.bits ||| BitVec.twoPow 32 (n - w.base))
  have base : w'.base = Count.plus w.base (run (w.bits ||| BitVec.twoPow 32 (n - w.base))) := by
    rw [← moved, base_ofParts]
  unfold Whole at whole whole'
  rw [Count.plus_eq_add (by omega)] at base
  obtain ⟨kept, sum⟩ : ∃ kept, size = kept + (w'.base - w.base) :=
    ⟨size - (w'.base - w.base), by omega⟩
  have split : List.range' w'.base size =
      List.range' w'.base kept ++ List.range' (w.base + size) (w'.base - w.base) := by
    rw [show w.base + size = w'.base + 1 * kept by omega, List.range'_append, ← sum]
  have old : (List.range' w'.base kept).filter (¬ w.Covers ·) = [] := by
    refine List.filter_eq_nil_iff.2 fun m mem => ?_
    rw [List.mem_range'_1] at mem
    rw [decide_eq_true_eq, not_not]
    exact ⟨by omega, by omega⟩
  have new : (List.range' (w.base + size) (w'.base - w.base)).filter (¬ w.Covers ·) =
      List.range' (w.base + size) (w'.base - w.base) := by
    refine List.filter_eq_self.2 fun m mem => ?_
    rw [List.mem_range'_1] at mem
    rw [decide_eq_true_eq]
    exact fun ⟨_, near⟩ => by omega
  rw [split, List.filter_append, old, new, List.nil_append, reach, reach, Count.plus_eq_add whole,
    Count.plus_eq_add whole', Nat.add_sub_add_right]

theorem marks_of_mem_log (mem : e ∈ log numbers w) (whole : e.before.Whole) (whole' : e.after.Whole) :
    Marks e := by
  rcases mark?_cases mem with ⟨report, none, same⟩ | ⟨entered, report, some⟩
  · rw [mark?_eq_none_iff, covers_and_not_seen_iff] at none
    exact ⟨iff_of_false (by simp [report]) none, by simp [report], by simp [report], fun _ => same⟩
  · have fresh := (mark?_eq_some_iff.1 some).1
    refine ⟨iff_of_true (by simp [report]) (covers_and_not_seen_iff.1 fresh),
      fun _ m => seen_of_mark?_iff some (.inr (.inl whole)), ?_, by simp [report]⟩
    rintro _ same
    cases report.symm.trans same
    exact entered_eq_filter some whole whole'

/-- However many numbers are marked, and whichever window they are marked in, as long as it is not cut
off: it has seen the numbers that it had seen at first and those that were taken since. It shows this
set as it should, and each mark does to it what it should. -/
theorem implements_set (w : SeenWindow) (numbers : List Nat) (start : w.Whole)
    (whole : ∀ e ∈ log numbers w, e.after.Whole) :
    w.Faithful ∧ ∀ front e rest, log numbers w = front ++ e :: rest →
      (∀ m, e.before.Seen m ↔ w.Seen m ∨ Taken front m) ∧ Marks e ∧ e.after.Faithful := by
  refine ⟨faithful start, fun front e rest eq => ?_⟩
  have marks (e) (mem : e ∈ log numbers w) : Marks e :=
    have before := (invariant_of_log Whole start (fun e mem _ => whole e mem) e mem).1
    marks_of_mem_log mem before (whole e mem)
  have mem : e ∈ log numbers w := by
    rw [eq]
    simp
  refine ⟨?_, marks e mem, faithful (whole e mem)⟩
  have none_taken : ∀ m, w.Seen m ↔ w.Seen m ∨ Taken [] m := by simp [Taken]
  refine history_of_log (fun past u => ∀ m, u.Seen m ↔ w.Seen m ∨ Taken past m) none_taken ?_ eq
  intro past e mem told m
  rw [taken_append_singleton]
  by_cases refused : e.report = none
  · rw [(marks e mem).refused refused, told]
    simp [refused]
  · rw [(marks e mem).seen_iff refused, told, or_assoc]
    simp [refused, eq_comm]

/-- A window with a seen number above its base: one number closes the gap below it, one is too far,
and one comes again. -/
theorem implements_set_of_gap :
    let w := ofParts 10 0b1011#32
    let numbers := [14, 12, 47, 14, 46]
    w.Whole ∧ (∀ e ∈ log numbers w, e.after.Whole) ∧
      (log numbers w).map (fun e => (e.report, e.after.base)) =
        [(some [], 12), (some [44, 45, 46], 15), (none, 15), (none, 15), (some [], 15)] ∧
      w.Faithful ∧ ∀ front e rest, log numbers w = front ++ e :: rest →
        (∀ m, e.before.Seen m ↔ w.Seen m ∨ Taken front m) ∧ Marks e ∧ e.after.Faithful := by
  intro w numbers
  have start : w.Whole := by decide +kernel
  have whole : ∀ e ∈ log numbers w, e.after.Whole := by decide +kernel
  exact ⟨start, whole, by decide +kernel, implements_set w numbers start whole⟩

/-! ## At the greatest count -/

/-- The number counts as seen, or it is the greatest count and the base has come up to it. -/
def Kept (n : Nat) (w : SeenWindow) : Prop := w.Seen n ∨ n = Count.top ∧ w.base = Count.top

theorem kept_of_mark? {w' : SeenWindow} (marks : w.mark? n = some (w', entered))
    (count : m ≤ Count.top) (kept : Kept m w ∨ m = n) : Kept m w' := by
  by_cases held_back : m = Count.top ∧ w'.base = Count.top
  · exact .inr held_back
  have room : m < Count.top ∨ w.Whole ∨ w'.base < Count.top := by
    have le := w'.base_le
    omega
  refine .inl ((seen_of_mark?_iff marks room).2 ?_)
  rcases kept with (seen | ⟨top, base⟩) | rfl
  · exact .inl seen
  · have le := base_le_of_mark? marks
    exact absurd ⟨top, le_antisymm w'.base_le (base ▸ le)⟩ held_back
  · exact .inr rfl

theorem kept_of_mem_log (mem : e ∈ log numbers w) (count : m ≤ Count.top) (kept : Kept m e.before) :
    Kept m e.after := by
  rcases mark?_cases mem with ⟨-, -, same⟩ | ⟨entered, -, marks⟩
  · exact same ▸ kept
  · exact kept_of_mark? marks count (.inl kept)

/-- Every number below the greatest count was seen just if the base has come up to it. -/
theorem base_eq_top_iff : w.base = Count.top ↔ ∀ m < Count.top, w.Seen m := by
  constructor
  · exact fun top m lt => .inl (top ▸ lt)
  · intro all
    by_contra less
    exact w.not_seen_base (all _ (Nat.lt_of_le_of_ne w.base_le less))

theorem seen_iff_of_kept (kept : Kept n w) :
    w.Seen n ↔ ¬ (n = Count.top ∧ ∀ m < Count.top, w.Seen m) := by
  rw [← base_eq_top_iff]
  constructor
  · rintro seen ⟨rfl, base⟩
    exact w.not_seen_base (base ▸ seen)
  · exact kept.resolve_right

theorem mark?_ne_none_iff_of_kept (kept : Kept n w) :
    w.mark? n ≠ none ↔ n = Count.top ∧ ∀ m < Count.top, w.Seen m := by
  rw [Ne, mark?_eq_none_iff, not_not]
  constructor
  · rintro ⟨-, fresh⟩
    rwa [seen_iff_of_kept kept, not_not] at fresh
  · rintro ⟨rfl, all⟩
    have base := base_eq_top_iff.2 all
    exact ⟨⟨base.le, by simp [base, size]⟩, base ▸ w.not_seen_base⟩

/-- Every number that was taken counts as seen ever after, and is not taken again. -/
def TakesOnce (entries : List (Log.Entry SeenWindow Nat (Option (List Nat)))) : Prop :=
  ∀ front e rest, entries = front ++ e :: rest → e.report ≠ none →
    (∀ d ∈ e :: rest, d.after.Seen e.act) ∧ ∀ d ∈ rest, d.act = e.act → d.report = none

/-- A number that was taken counts as seen ever after, unless it is the greatest count and all others
were seen; it is taken again just then. -/
theorem taken_again_iff {front rest : List (Log.Entry SeenWindow Nat (Option (List Nat)))}
    (eq : log numbers w = front ++ e :: rest) (taken : e.report ≠ none) (count : e.act ≤ Count.top) :
    (∀ d ∈ e :: rest, d.after.Seen e.act ↔
      ¬ (e.act = Count.top ∧ ∀ m < Count.top, d.after.Seen m)) ∧
    ∀ d ∈ rest, d.act = e.act →
      (d.report ≠ none ↔ e.act = Count.top ∧ ∀ m < Count.top, d.before.Seen m) := by
  have mem (d) (there : d ∈ e :: rest) : d ∈ log numbers w := eq ▸ List.mem_append_right front there
  have first : Kept e.act e.after := by
    rcases mark?_cases (mem e List.mem_cons_self) with ⟨none, -⟩ | ⟨entered, -, marks⟩
    · exact absurd none taken
    · exact kept_of_mark? marks count (.inr rfl)
  obtain ⟨later, rfl⟩ := exists_log_of_log eq
  have kept : ∀ d ∈ log later e.after, Kept e.act d.before ∧ Kept e.act d.after :=
    invariant_of_log (Kept e.act) first fun d there => kept_of_mem_log there count
  constructor
  · intro d there
    rcases List.mem_cons.1 there with rfl | later
    · exact seen_iff_of_kept first
    · exact seen_iff_of_kept (kept d later).2
  · intro d there same
    have again := mark?_ne_none_iff_of_kept (kept d there).1
    rw [← same] at again ⊢
    rw [← again]
    rcases mark?_cases (mem d (List.mem_cons_of_mem e there)) with
      ⟨report, none, -⟩ | ⟨entered, report, marks⟩
    · simp [report, none]
    · simp [report, marks]

/-- The greatest count is refused while the one before it is missing, and taken again afterwards. -/
theorem taken_again_greatest :
    let entries := log [Count.top, Count.top, Count.top - 1, Count.top] (ofParts (Count.top - 1) 0#32)
    entries.map (·.report) = [some [], none, some [], some []] ∧
      ∃ e rest, entries = e :: rest ∧ e.report ≠ none ∧ e.act = Count.top ∧
        (∀ d ∈ e :: rest, d.after.Seen e.act ↔
          ¬ (e.act = Count.top ∧ ∀ m < Count.top, d.after.Seen m)) ∧
        ∀ d ∈ rest, d.act = e.act →
          (d.report ≠ none ↔ e.act = Count.top ∧ ∀ m < Count.top, d.before.Seen m) := by
  intro entries
  have first : entries = [] ++ _ :: _ := log_cons _ _ _
  have taken : (entries.head?.bind (·.report)) ≠ none := by decide +kernel
  exact ⟨by decide +kernel, _, _, first, taken, rfl, taken_again_iff first taken le_rfl⟩

/-- A window whose base is the greatest count takes it any number of times. -/
theorem not_takesOnce_greatest :
    ¬ TakesOnce (log [Count.top, Count.top] (ofParts Count.top 0#32)) := by
  intro once
  have again := (once [] _ _ rfl (by decide +kernel)).2 _ List.mem_cons_self rfl
  revert again
  decide +kernel

end SealedStream.SeenWindow
