import SealedStream.Proofs.Rollover.Plan

/-!
# The order of the pairs

What becomes of the secrets of one pair does not depend on those of another. A rollover is therefore the
same in whatever order the pairs are gone through, but for the order of its lists.

## Main definitions

* `Passage.startingWith` — an order with a given pair in front.
* `Rollover.Alike` — two rollovers differ in the order of the pairs at most.

## Main statements

* `Alongside.foldl_eq` — the secrets of different pairs may be folded over in any order.
* `Rollover.planBy_alike` — any two orders of the pairs lead to rollovers that are alike.
-/

namespace SealedStream

open Std

/-! ## Lists that differ in the order of the pairs -/

namespace Alongside

variable {l l' l'' m m' : List PeriodSecret}

theorem refl (l : List PeriodSecret) : Alongside l l := fun _ => rfl

theorem symm (h : Alongside l l') : Alongside l' l := fun pair => (h pair).symm

theorem trans (h : Alongside l l') (h' : Alongside l' l'') : Alongside l l'' :=
  fun pair => (h pair).trans (h' pair)

theorem append (h : Alongside l l') (h' : Alongside m m') : Alongside (l ++ m) (l' ++ m') := by
  intro pair
  rw [List.filter_append, List.filter_append, h pair, h' pair]

theorem filter (h : Alongside l l') (p : PeriodSecret → Bool) :
    Alongside (l.filter p) (l'.filter p) := by
  intro pair
  have swap (m : List PeriodSecret) :
      (m.filter p).filter (·.pair = pair) = (m.filter (·.pair = pair)).filter p := by
    simp only [List.filter_filter, Bool.and_comm]
  rw [swap, swap, h pair]

theorem perm (h : Alongside l l') : l.Perm l' := by
  rw [List.perm_iff_count]
  intro s
  rw [← List.count_filter (p := (·.pair = s.pair)) (by simp), h s.pair, List.count_filter (by simp)]

theorem mem_iff (h : Alongside l l') {s : PeriodSecret} : s ∈ l ↔ s ∈ l' := h.perm.mem_iff

theorem eq_nil_iff (h : Alongside l l') : l = [] ↔ l' = [] := by
  constructor
  · rintro rfl
    exact h.perm.nil_eq.symm
  · rintro rfl
    exact h.perm.eq_nil

/-- The first secret of a list is the first one of its pair in the other list. -/
theorem exists_split {s : PeriodSecret} (h : Alongside (s :: l) l') :
    ∃ before after, l' = before ++ s :: after ∧ (∀ x ∈ before, x.pair ≠ s.pair) ∧
      Alongside l (before ++ after) := by
  have first := h s.pair
  rw [List.filter_cons_of_pos (by simp)] at first
  obtain ⟨before, after, rfl, others, -, rest⟩ := List.filter_eq_cons_iff.1 first.symm
  simp only [decide_eq_true_eq] at others
  refine ⟨before, after, rfl, others, fun pair => ?_⟩
  have same := h pair
  by_cases own : s.pair = pair
  · subst own
    have none : before.filter (·.pair = s.pair) = [] := List.filter_eq_nil_iff.2 (by simpa using others)
    rw [List.filter_append, none, List.nil_append, rest]
  · rw [List.filter_cons_of_neg (by simpa using own), List.filter_append,
      List.filter_cons_of_neg (by simpa using own)] at same
    rw [same, List.filter_append]

end Alongside

/-- One pair first, then the others. -/
def Passage.startingWith (pair : Pair) : Passage where
  arrange secrets := secrets.filter (·.pair = pair) ++ secrets.filter (·.pair ≠ pair)
  alongside secrets other := by
    rw [List.filter_append, List.filter_filter, List.filter_filter]
    by_cases own : other = pair
    · subst own
      simp
    · have first : secrets.filter (fun s => decide (s.pair = other) && decide (s.pair = pair)) = [] :=
        List.filter_eq_nil_iff.2 fun s _ => by grind
      rw [first, List.nil_append]
      exact List.filter_congr fun s _ => by grind

section Folding

variable {β : Type} {f : β → PeriodSecret → β} {G : β → PeriodSecret → Prop}

/-- A step with a secret comes before or after the steps with secrets of other pairs. -/
theorem foldl_append_cons {before after : List PeriodSecret} {s : PeriodSecret} {b : β}
    (others : ∀ x ∈ before, x.pair ≠ s.pair) (keeps : ∀ b x y, G b x → G b y → G (f b x) y)
    (comm : ∀ b x y, x.pair ≠ y.pair → G b x → G b y → f (f b x) y = f (f b y) x)
    (good : ∀ x ∈ before ++ s :: after, G b x) :
    (before ++ s :: after).foldl f b = (s :: (before ++ after)).foldl f b := by
  induction before generalizing b with
  | nil => rfl
  | cons x before ih =>
    rw [List.forall_mem_cons] at others
    have here := good x (by simp)
    have there := good s (by simp)
    have later : ∀ y ∈ before ++ s :: after, G (f b x) y := fun y mem =>
      keeps b x y here (good y (List.mem_cons_of_mem _ mem))
    rw [List.cons_append, List.foldl_cons, ih others.2 later, List.foldl_cons,
      comm b x s others.1 here there]
    rfl

/-- If the steps with secrets of different pairs commute, only the order of the secrets of each pair
matters. -/
theorem Alongside.foldl_eq {l l' : List PeriodSecret} (h : Alongside l l') {b : β}
    (keeps : ∀ b x y, G b x → G b y → G (f b x) y)
    (comm : ∀ b x y, x.pair ≠ y.pair → G b x → G b y → f (f b x) y = f (f b y) x)
    (good : ∀ x ∈ l, G b x) : l.foldl f b = l'.foldl f b := by
  induction l generalizing l' b with
  | nil => rw [h.perm.nil_eq]
  | cons s l ih =>
    obtain ⟨before, after, rfl, others, rest⟩ := h.exists_split
    have good' : ∀ x ∈ before ++ s :: after, G b x := fun x mem => good x (h.mem_iff.2 mem)
    rw [foldl_append_cons others keeps comm good', List.foldl_cons, List.foldl_cons]
    exact ih rest fun x mem => keeps b s x (good s (by simp)) (good x (List.mem_cons_of_mem _ mem))

end Folding

/-! ## Rollovers that differ in the order of the pairs -/

namespace Rollover

theorem pairwise_sortIds (ids : List PeriodId) :
    (sortIds ids).Pairwise fun a b => (compare a b).isLE := by
  refine List.pairwise_mergeSort (fun a b c => TransCmp.isLE_trans) (fun a b => ?_) ids
  rw [OrientedOrd.eq_swap (a := b)]
  cases compare a b <;> rfl

/-- Sorted identities do not tell the order they came in. -/
theorem sortIds_eq_of_perm {ids ids' : List PeriodId} (perm : ids.Perm ids') :
    sortIds ids = sortIds ids' := by
  refine List.Perm.eq_of_pairwise ?_ (pairwise_sortIds ids) (pairwise_sortIds ids') ?_
  · intro a b _ _ le ge
    exact LawfulEqOrd.eq_of_compare (OrientedCmp.isLE_antisymm le ge)
  · exact (List.mergeSort_perm ids _).trans (perm.trans (List.mergeSort_perm ids' _).symm)

/-- The rollovers hold, derive and retire the same secrets. Those of each pair are in the same order. -/
structure Alike (r r' : Rollover) : Prop where
  held : r.held = r'.held
  created : Alongside r.created r'.created
  dead : Alongside r.dead r'.dead
  orphaned : Alongside r.orphaned r'.orphaned

namespace Alike

variable {r r' r'' : Rollover}

theorem symm (h : Alike r r') : Alike r' r :=
  ⟨h.held.symm, h.created.symm, h.dead.symm, h.orphaned.symm⟩

theorem trans (h : Alike r r') (h' : Alike r' r'') : Alike r r'' :=
  ⟨h.held.trans h'.held, h.created.trans h'.created, h.dead.trans h'.dead,
    h.orphaned.trans h'.orphaned⟩

theorem retired (h : Alike r r') : r.retired.Perm r'.retired :=
  (h.dead.append h.orphaned).perm.map _

theorem summary_eq (h : Alike r r') : r.summary = r'.summary := by
  rw [summary, summary, sortIds_eq_of_perm h.retired, sortIds_eq_of_perm (h.created.perm.map _)]

end Alike

variable {suite : Suite} {now : Nat} {latencies : ExtTreeMap Transport Nat} {tolerance : Nat}
  {secrets secrets' : List PeriodSecret} {passage passage' : Passage} {r : Rollover}

/-- The trio of a pair depends on the secrets of the pair only, and so does what fills it. -/
theorem filled_eq_of_alongside (h : Alongside secrets secrets') :
    filled suite now latencies tolerance secrets = filled suite now latencies tolerance secrets' := by
  refine ExtTreeMap.ext_getElem? fun pair => ?_
  have dead : Alongside (deadOf now latencies tolerance secrets)
      (deadOf now latencies tolerance secrets') := h.filter _
  have live : (liveTrios (stage? now latencies tolerance) secrets)[pair]? =
      (liveTrios (stage? now latencies tolerance) secrets')[pair]? := by
    simp only [getElem?_liveTrios, h pair, h.mem_iff]
  rw [filled, filled, getElem?_fillAll, getElem?_fillAll, live, dead pair]
  simp only [dead.mem_iff]

variable (passage') in
/-- A rollover is planned in any order of the pairs if it is in one, and all of them are alike. -/
theorem planBy_alike (h : Alongside secrets secrets')
    (plans : planBy passage suite now latencies tolerance secrets = .ok r) :
    ∃ r', planBy passage' suite now latencies tolerance secrets' = .ok r' ∧ Alike r r' := by
  have timely : secrets.findSome? (premature? now latencies tolerance) = none := by
    unfold planBy at plans
    split at plans
    · cases plans
    · assumption
  have timely' : secrets'.findSome? (premature? now latencies tolerance) = none := by
    rw [List.findSome?_eq_none_iff] at timely ⊢
    exact fun s mem => timely s (h.mem_iff.2 mem)
  simp only [planBy, timely] at plans
  cases plans
  refine ⟨_, by simp only [planBy, timely']; rfl, ?_⟩
  have same := @filled_eq_of_alongside suite now latencies tolerance _ _ h
  unfold filled deadOf at same
  rw [same]
  exact ⟨rfl, (passage.alongside _).trans (passage'.alongside _).symm, h.filter _, h.filter _⟩

end Rollover

end SealedStream
