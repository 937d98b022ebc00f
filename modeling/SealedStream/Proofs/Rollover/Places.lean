import Mathlib.Data.List.Induction
import SealedStream.Proofs.Maps
import SealedStream.Proofs.Origin
import SealedStream.Rotation.Rollover

/-!
# Secrets put in places

Live secrets and derived ones come to their places in the same way: one after the other, and in a
place the last one stays.

## Main statements

* `Trio.get_setAll` — what stands in a place after all.
* `Rollover.getElem?_liveTrios` — the trios of the live secrets.
-/

namespace SealedStream

open Std

namespace Trio

theorem mem_secrets {t : Trio} {s : PeriodSecret} :
    s ∈ t.secrets ↔ ∃ turn, t.get turn = some s := by
  simp only [secrets, List.mem_filterMap]
  constructor
  · rintro ⟨turn, -, h⟩
    exact ⟨turn, h⟩
  · rintro ⟨turn, h⟩
    exact ⟨turn, by cases turn <;> decide, h⟩

theorem mem_missing {t : Trio} {turn : Turn} : turn ∈ t.missing ↔ t.get turn = none := by
  have all : turn ∈ Turn.all := by cases turn <;> decide
  simp [missing, all]

theorem vacant_iff {t : Trio} : t.Vacant ↔ ∀ turn, t.get turn = none := by
  simp only [Vacant, List.eq_nil_iff_forall_not_mem, mem_secrets, not_exists,
    Option.eq_none_iff_forall_ne_some]
  exact forall_comm

@[simp] theorem get_empty (turn : Turn) : empty.get turn = none := by cases turn <;> rfl

/-- Puts secrets one after the other in the places that are given for them. -/
def setAll (turn? : PeriodSecret → Option Turn) (secrets : List PeriodSecret) (t : Trio) : Trio :=
  secrets.foldl (fun t s => (turn? s).elim t fun turn => t.set turn s) t

variable {turn? : PeriodSecret → Option Turn}

theorem setAll_of_forall {secrets : List PeriodSecret} {t : Trio}
    (none : ∀ s ∈ secrets, turn? s = none) : t.setAll turn? secrets = t := by
  induction secrets with
  | nil => rfl
  | cons s secrets ih =>
    have step : t.setAll turn? (s :: secrets) = t.setAll turn? secrets := by
      simp [setAll, none s]
    rw [step]
    exact ih fun x mem => none x (List.mem_cons_of_mem s mem)

/-- In every place stands the last secret that belongs there. -/
theorem get_setAll (secrets : List PeriodSecret) (t : Trio) (turn : Turn) :
    (t.setAll turn? secrets).get turn =
      (secrets.reverse.find? fun s => turn? s = some turn).or (t.get turn) := by
  induction secrets using List.reverseRecOn with
  | nil => rfl
  | append_singleton secrets s ih =>
    have step : t.setAll turn? (secrets ++ [s]) =
        (turn? s).elim (t.setAll turn? secrets) fun turn => (t.setAll turn? secrets).set turn s := by
      simp [setAll]
    rw [step, List.reverse_append, List.reverse_singleton, List.singleton_append,
      List.find?_cons]
    cases place : turn? s with
    | none => simpa using ih
    | some other =>
      by_cases same : turn = other
      · simp [same]
      · simpa [get_set_of_ne _ s same, Ne.symm same] using ih

/-- If only one secret belongs in a place, that one stands there. -/
theorem get_setAll_of_mem {secrets : List PeriodSecret} {t : Trio} {turn : Turn} {s : PeriodSecret}
    (mem : s ∈ secrets) (place : turn? s = some turn)
    (only : ∀ x ∈ secrets, turn? x = some turn → x = s) :
    (t.setAll turn? secrets).get turn = some s := by
  rw [get_setAll]
  cases found : secrets.reverse.find? fun s => turn? s = some turn with
  | none =>
    have := List.find?_eq_none.1 found s (List.mem_reverse.2 mem)
    simp [place] at this
  | some x =>
    have stands := List.find?_some found
    have within := List.mem_reverse.1 (List.mem_of_find?_eq_some found)
    simp [only x within (by simpa using stands)]

theorem get_setAll_of_forall {secrets : List PeriodSecret} {t : Trio} {turn : Turn}
    (none : ∀ x ∈ secrets, turn? x ≠ some turn) :
    (t.setAll turn? secrets).get turn = t.get turn := by
  have absent : secrets.reverse.find? (fun s => turn? s = some turn) = .none := by
    simpa [List.find?_eq_none] using none
  rw [get_setAll, absent, Option.none_or]

theorem mem_of_get_setAll {secrets : List PeriodSecret} {t : Trio} {turn : Turn} {s : PeriodSecret}
    (h : (t.setAll turn? secrets).get turn = some s) :
    s ∈ secrets ∧ turn? s = some turn ∨ t.get turn = some s := by
  rw [get_setAll] at h
  cases found : secrets.reverse.find? fun s => turn? s = some turn with
  | none => rw [found, Option.none_or] at h; exact .inr h
  | some x =>
    rw [found, Option.some_or, Option.some.injEq] at h
    subst h
    exact .inl ⟨List.mem_reverse.1 (List.mem_of_find?_eq_some found),
      by simpa using List.find?_some found⟩

end Trio

theorem mem_heldSecrets {held : ExtTreeMap Pair Trio} {s : PeriodSecret} :
    s ∈ held.values.flatMap Trio.secrets ↔
      ∃ (pair : Pair) (trio : Trio) (turn : Turn),
        held[pair]? = some trio ∧ trio.get turn = some s := by
  simp only [List.mem_flatMap, mem_values, Trio.mem_secrets]
  constructor
  · rintro ⟨trio, ⟨pair, there⟩, turn, stands⟩
    exact ⟨pair, trio, turn, there, stands⟩
  · rintro ⟨pair, trio, turn, there, stands⟩
    exact ⟨trio, ⟨pair, there⟩, turn, stands⟩

/-- The place of a live secret. -/
def Schedule.Stage.turn? : Schedule.Stage → Option Turn
  | .live turn => some turn
  | _ => none

@[simp] theorem Schedule.Stage.turn?_eq_some_iff {stage : Schedule.Stage} {turn : Turn} :
    stage.turn? = some turn ↔ stage = .live turn := by
  cases stage <;> simp [turn?]

namespace Rollover

theorem place_eq_setAll (now interval : Nat) (link : Link) (secrets : List PeriodSecret) (t : Trio) :
    place now interval link secrets t =
      t.setAll (fun s => ((Schedule.lifespan link.epoch interval s.period).stageAt now).turn?)
        secrets := by
  unfold place Trio.setAll
  congr
  funext t s
  dsimp only
  cases (Schedule.lifespan link.epoch interval s.period).stageAt now <;> rfl

/-- The place of a secret of which the stage is known. -/
def turnBy (stage : PeriodSecret → Option Schedule.Stage) (s : PeriodSecret) : Option Turn :=
  (stage s).bind Schedule.Stage.turn?

theorem turnBy_eq_some_iff {stage : PeriodSecret → Option Schedule.Stage} {s : PeriodSecret}
    {turn : Turn} : turnBy stage s = some turn ↔ stage s = some (.live turn) := by
  simp [turnBy, Option.bind_eq_some_iff]

/-- The trio of a pair holds the live secrets of the pair; a pair without any has none. -/
theorem getElem?_liveTrios (stage : PeriodSecret → Option Schedule.Stage)
    (secrets : List PeriodSecret) (pair : Pair) :
    (liveTrios stage secrets)[pair]? =
      if ∃ s ∈ secrets, s.pair = pair ∧ (turnBy stage s).isSome then
        some (Trio.empty.setAll (turnBy stage) (secrets.filter (·.pair = pair)))
      else none := by
  induction secrets using List.reverseRecOn with
  | nil => simp [liveTrios]
  | append_singleton secrets s ih =>
    have step : liveTrios stage (secrets ++ [s]) = (turnBy stage s).elim (liveTrios stage secrets)
        fun turn => (liveTrios stage secrets).insert s.pair
          ((((liveTrios stage secrets)[s.pair]?).getD .empty).set turn s) := by
      simp only [liveTrios, List.foldl_append, List.foldl_cons, List.foldl_nil, turnBy]
      cases stage s with
      | none => rfl
      | some stage => cases stage <;> rfl
    rw [step]
    cases place : turnBy stage s with
    | none =>
      have same : (∃ x ∈ secrets ++ [s], x.pair = pair ∧ (turnBy stage x).isSome) ↔
          ∃ x ∈ secrets, x.pair = pair ∧ (turnBy stage x).isSome := by
        simp [or_and_right, exists_or, place]
      have kept : Trio.empty.setAll (turnBy stage) ((secrets ++ [s]).filter (·.pair = pair)) =
          Trio.empty.setAll (turnBy stage) (secrets.filter (·.pair = pair)) := by
        by_cases own : s.pair = pair <;> simp [Trio.setAll, own, place]
      simp only [Option.elim_none, ih, same, kept]
    | some turn =>
      rw [Option.elim_some, ExtTreeMap.getElem?_insert]
      by_cases own : s.pair = pair
      · subst own
        have before : ((liveTrios stage secrets)[s.pair]?).getD .empty =
            Trio.empty.setAll (turnBy stage) (secrets.filter (·.pair = s.pair)) := by
          rw [ih]
          split
          · rfl
          · rename_i nobody
            refine (Trio.setAll_of_forall ?_).symm
            intro x mem
            obtain ⟨mem, same⟩ := List.mem_filter.1 mem
            simpa using fun live => nobody ⟨x, mem, by simpa using same, live⟩
        have somebody : ∃ x ∈ secrets ++ [s], x.pair = s.pair ∧ (turnBy stage x).isSome :=
          ⟨s, by simp, rfl, by simp [place]⟩
        rw [if_pos (by simp), if_pos somebody, before]
        simp [Trio.setAll, place]
      · rw [if_neg (by simpa using own), ih]
        simp [own]

end Rollover

end SealedStream
