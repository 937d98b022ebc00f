import Std.Data.ExtTreeMap

/-!
# The entries of a map, and erasing from it

The entries of a map are listed in the order of their keys, and so are its values. What is in the list
is what some key leads to. Keys that are erased one after the other lead to nothing.
-/

namespace SealedStream

open Std

variable {α β : Type} {cmp : α → α → Ordering} [TransCmp cmp]

theorem values_eq_map_toList (t : ExtTreeMap α β cmp) : t.values = t.toList.map Prod.snd := by
  obtain ⟨⟨q⟩⟩ := t
  induction q using Quotient.ind with
  | _ m =>
    change DTreeMap.Internal.Impl.values m.inner =
      (DTreeMap.Internal.Impl.Const.toList m.inner).map Prod.snd
    rw [DTreeMap.Internal.Impl.values_eq_map_snd,
      DTreeMap.Internal.Impl.Const.toList_eq_toListModel_map]
    simp

theorem mem_values [LawfulEqCmp cmp] {t : ExtTreeMap α β cmp} {b : β} :
    b ∈ t.values ↔ ∃ a : α, t[a]? = some b := by
  rw [values_eq_map_toList]
  simp

theorem minEntry?_eq_head?_toList (t : ExtTreeMap α β cmp) : t.minEntry? = t.toList.head? := by
  obtain ⟨⟨q⟩⟩ := t
  induction q using Quotient.ind with
  | _ m =>
    change DTreeMap.Internal.Impl.Const.minEntry? m.inner =
      (DTreeMap.Internal.Impl.Const.toList m.inner).head?
    rw [DTreeMap.Internal.Impl.Const.toList_eq_toListModel_map]
    generalize m.inner = tree
    fun_induction DTreeMap.Internal.Impl.Const.minEntry? tree with
    | case1 => rfl
    | case2 => simp [DTreeMap.Internal.Impl.toListModel]
    | case3 size k v size' k' v' l r r' ih =>
      rw [ih]
      simp [DTreeMap.Internal.Impl.toListModel]

theorem toList_erase [LawfulEqCmp cmp] (t : ExtTreeMap α β cmp) (a : α) :
    (t.erase a).toList = t.toList.filter fun x => cmp a x.1 ≠ .eq := by
  rw [← ExtTreeMap.toList_filter (f := fun x _ => cmp a x ≠ .eq)]
  congr 1
  refine ExtTreeMap.ext_getElem? fun k => ?_
  rw [ExtTreeMap.getElem?_erase, ExtTreeMap.getElem?_filter']
  by_cases same : cmp a k = .eq <;> cases t[k]? <;> simp [same, Option.filter]

/-- Without its first entry, a map has the entries that follow. -/
theorem toList_erase_first [LawfulEqCmp cmp] {t : ExtTreeMap α β cmp} {x : α × β}
    {rest : List (α × β)} (entries : t.toList = x :: rest) : (t.erase x.1).toList = rest := by
  have ordered := t.ordered_keys_toList
  rw [entries, List.pairwise_cons] at ordered
  rw [toList_erase, entries, List.filter_cons_of_neg (by simp), List.filter_eq_self]
  intro y mem
  simp [ordered.1 y mem]

theorem toList_insert_perm [LawfulEqCmp cmp] (t : ExtTreeMap α β cmp) (a : α) (b : β) :
    (t.insert a b).toList.Perm ((a, b) :: (t.erase a).toList) := by
  have nodup (u : ExtTreeMap α β cmp) : u.toList.Nodup :=
    u.distinct_keys_toList.imp fun differ same => differ (by rw [same]; exact ReflCmp.compare_self)
  refine (List.perm_ext_iff_of_nodup (nodup _) (List.nodup_cons.2 ⟨by simp, nodup _⟩)).2 ?_
  rintro ⟨k, v⟩
  rw [List.mem_cons]
  simp only [ExtTreeMap.mem_toList_iff_getElem?_eq_some, ExtTreeMap.getElem?_insert,
    ExtTreeMap.getElem?_erase]
  by_cases same : cmp a k = .eq
  · have := LawfulEqCmp.eq_of_compare same
    grind
  · grind

theorem toList_insert_of_nil [LawfulEqCmp cmp] {t : ExtTreeMap α β cmp} (none : t.toList = []) (a : α)
    (b : β) : (t.insert a b).toList = [(a, b)] := by
  have perm := toList_insert_perm t a b
  rw [toList_erase, none, List.filter_nil] at perm
  exact List.perm_singleton.1 perm

theorem getElem?_foldl_erase [LawfulEqCmp cmp] [DecidableEq α] (keys : List α)
    (t : ExtTreeMap α β cmp) (a : α) :
    (keys.foldl (·.erase ·) t)[a]? = if a ∈ keys then none else t[a]? := by
  induction keys generalizing t with
  | nil => simp
  | cons first keys ih =>
    rw [List.foldl_cons, ih, ExtTreeMap.getElem?_erase]
    simp only [LawfulEqCmp.compare_eq_iff_eq]
    grind

theorem getElem?_filter_not [LawfulEqCmp cmp] (p : α → Prop) [DecidablePred p]
    (t : ExtTreeMap α β cmp) (a : α) :
    (t.filter fun a _ => ¬ p a)[a]? = if p a then none else t[a]? := by
  rw [ExtTreeMap.getElem?_filter']
  cases t[a]? <;> by_cases holds : p a <;> simp [holds]

end SealedStream
