import SealedStream.Directory

/-!
# What a directory lists

Whatever is done to a directory, its listings are told identity by identity: a listing that was there
stays as it is, is taken out, or gives way to that of a secret.

## Main definitions

* `Listing.ofSecret` — the listing that adding a secret makes.

## Main statements

* `Directory.getElem?_listings_remove`, `Directory.getElem?_listings_add` and their kin — the listings
  after a change.
-/

namespace SealedStream

open Std

/-- The listing that adding a secret makes. -/
def Listing.ofSecret (suite : Suite) (s : PeriodSecret) : Listing where
  link := s.link
  key := s.key
  tagKey := suite.tagKey s.link.side.other s.key
  window := s.incoming
  tags := Directory.recordTags
    (Directory.tagsOf suite (suite.tagKey s.link.side.other s.key) s.incoming.unseen) ∅

namespace Directory

variable {suite : Suite} {d : Directory} {id : PeriodId} {l : Listing}

@[simp] theorem getElem?_listings_empty : empty.listings[id]? = none := by simp [empty]

theorem getElem?_listings_remove {removed : PeriodId} :
    (d.remove removed).listings[id]? = if removed = id then none else d.listings[id]? := by
  unfold remove
  cases there : d.listings[removed]? with
  | none => grind
  | some listing => simp [ExtTreeMap.getElem?_erase]

theorem getElem?_listings_add {s : PeriodSecret} :
    (d.add suite s).listings[id]? =
      if s.id = id then some (.ofSecret suite s) else d.listings[id]? := by
  simp only [add, ExtTreeMap.getElem?_insert, LawfulEqCmp.compare_eq_iff_eq,
    getElem?_listings_remove]
  split <;> rfl

theorem getElem?_listings_removeAll {ids : List PeriodId} :
    (ids.foldl (fun d id => d.remove id) d).listings[id]? =
      if id ∈ ids then none else d.listings[id]? := by
  induction ids generalizing d with
  | nil => simp
  | cons first ids ih =>
    rw [List.foldl_cons, ih, getElem?_listings_remove]
    grind

/-- Of the secrets with one identity, the last one is listed. -/
theorem getElem?_listings_addAll {secrets : List PeriodSecret} :
    (secrets.foldl (fun d s => d.add suite s) d).listings[id]? =
      ((secrets.reverse.find? (·.id = id)).map (Listing.ofSecret suite)).or d.listings[id]? := by
  induction secrets generalizing d with
  | nil => simp
  | cons first secrets ih =>
    rw [List.foldl_cons, ih, getElem?_listings_add, List.reverse_cons, List.find?_append]
    cases secrets.reverse.find? (·.id = id) <;> by_cases own : first.id = id <;> simp [own]

/-- A secret is listed as it is if no other one with its identity is listed with it. -/
theorem getElem?_listings_addAll_of_mem {secrets : List PeriodSecret} {s : PeriodSecret}
    (mem : s ∈ secrets) (only : ∀ t ∈ secrets, t.id = s.id → t = s) :
    (secrets.foldl (fun d s => d.add suite s) d).listings[s.id]? = some (.ofSecret suite s) := by
  rw [getElem?_listings_addAll]
  cases found : secrets.reverse.find? (·.id = s.id) with
  | none => exact absurd (List.find?_eq_none.1 found s (List.mem_reverse.2 mem)) (by simp)
  | some t =>
    have within := List.mem_reverse.1 (List.mem_of_find?_eq_some found)
    rw [only t within (by simpa using List.find?_some found), Option.map_some, Option.some_or]

theorem getElem?_listings_addAll_of_forall_ne {secrets : List PeriodSecret}
    (none : ∀ s ∈ secrets, s.id ≠ id) :
    (secrets.foldl (fun d s => d.add suite s) d).listings[id]? = d.listings[id]? := by
  rw [getElem?_listings_addAll, List.find?_eq_none.2 (by simpa using none), Option.map_none,
    Option.none_or]

theorem getElem?_listings_removeWhere {p : PeriodId → Bool} :
    (d.removeWhere p).listings[id]? = if p id then none else d.listings[id]? := by
  simp only [removeWhere, getElem?_listings_removeAll, List.mem_filter, ExtTreeMap.mem_keys]
  by_cases there : id ∈ d.listings
  · simp [there]
  · simp [there]

theorem lookup?_toList (d : Directory) (tag : Tag) : d.lookup? tag.toList = d.tags[tag]? := by
  have same (wide : tag.toList.toArray.size = 16) : (⟨tag.toList.toArray, wide⟩ : Tag) = tag :=
    Vector.toArray_inj.1 (Array.toArray_toList ..)
  simp only [lookup?, Vector.length_toList, dif_pos, same]

/-- Bytes lead to a stream just if they are a tag that does. -/
theorem lookup?_eq_some_iff {bytes : Bytes} {x : PeriodId × Nat} :
    d.lookup? bytes = some x ↔ ∃ tag : Tag, tag.toList = bytes ∧ d.tags[tag]? = some x := by
  constructor
  · unfold lookup?
    intro found
    split at found
    · exact ⟨_, by simp, found⟩
    · cases found
  · rintro ⟨tag, rfl, leads⟩
    rw [lookup?_toList, leads]

/-! ### Which identities are listed -/

theorem mem_listings_addAll {secrets : List PeriodSecret} :
    id ∈ (secrets.foldl (fun d s => d.add suite s) d).listings ↔
      (∃ s ∈ secrets, s.id = id) ∨ id ∈ d.listings := by
  rw [ExtTreeMap.mem_iff_isSome_getElem?, getElem?_listings_addAll, Option.isSome_or,
    Option.isSome_map, Bool.or_eq_true, List.find?_isSome, ExtTreeMap.mem_iff_isSome_getElem?]
  simp

theorem mem_listings_removeAll {ids : List PeriodId} :
    id ∈ (ids.foldl (fun d id => d.remove id) d).listings ↔ id ∈ d.listings ∧ id ∉ ids := by
  rw [ExtTreeMap.mem_iff_isSome_getElem?, getElem?_listings_removeAll]
  split <;> simp_all

/-- Taking out secrets changes nothing just if none of them is listed. -/
theorem removeAll_eq_self_iff {ids : List PeriodId} :
    ids.foldl (fun d id => d.remove id) d = d ↔ ∀ id ∈ ids, id ∉ d.listings := by
  constructor
  · intro same id mem there
    rw [← same, mem_listings_removeAll] at there
    exact there.2 mem
  · intro absent
    induction ids with
    | nil => rfl
    | cons first ids ih =>
      rw [List.forall_mem_cons] at absent
      have kept : d.remove first = d := by
        rw [remove, ExtTreeMap.getElem?_eq_none absent.1]
      rw [List.foldl_cons, kept]
      exact ih absent.2

theorem mem_listings_removeWhere {p : PeriodId → Bool} :
    id ∈ (d.removeWhere p).listings ↔ id ∈ d.listings ∧ p id = false := by
  rw [ExtTreeMap.mem_iff_isSome_getElem?, getElem?_listings_removeWhere]
  split <;> simp_all

end Directory

namespace Registry

variable {d : Directory} {id : PeriodId} {listing : Listing} {tag : Tag} {number : Nat}
  {window : SeenWindow} {listed : List (Nat × Tag)}

theorem getElem?_listings_advance {advanced : PeriodId} :
    (advance d advanced listing tag number window listed).listings[id]? =
      if advanced = id then some { listing with
        window := window
        tags := Directory.recordTags listed (listing.tags.erase number) }
      else d.listings[id]? := by
  simp only [advance, ExtTreeMap.getElem?_insert, LawfulEqCmp.compare_eq_iff_eq]

/-- A listed secret stays listed, and no other one comes to be. -/
theorem mem_listings_advance {advanced : PeriodId} (there : advanced ∈ d.listings) :
    id ∈ (advance d advanced listing tag number window listed).listings ↔ id ∈ d.listings := by
  rw [ExtTreeMap.mem_iff_isSome_getElem?, getElem?_listings_advance]
  split
  · rename_i same
    simp [← same, there]
  · rw [ExtTreeMap.mem_iff_isSome_getElem?]

end Registry

end SealedStream
