import Mathlib.Algebra.GroupWithZero.Nat
import SealedStream.Proofs.Recognition
import SealedStream.Proofs.Tags

/-!
# The directory is the union of its windows

A stream is awaited if the window of a listed secret may still take it. As long as the awaited streams
have different tags and no window comes near the greatest count, the tags of a directory are those of
the streams it awaits, each leading to its own stream and to no other one.

## Main definitions

* `Directory.Awaits`, `Directory.awaited` — the awaited streams with their tags.
* `Listing.Proper` — a listing holds the tags of the streams that its window may take.
* `Directory.Tidy` — a tag that leads somewhere is listed there.
* `Directory.Exact` — the tags are those of the awaited streams.

## Main statements

* `Directory.Exact.removeAll`, `Directory.Exact.add`, `Directory.Exact.addAll`,
  `Directory.Exact.recognizes` — what leaves a directory exact.
* `Directory.Exact.eq_of_listings` — an exact directory is told by its listings.
* `Directory.Exact.size_tags` — how many tags there are.
-/

namespace SealedStream

open Std

variable {suite : Suite}

/-! ## Listings -/

/-- The listing belongs to a secret with the identity `id`, and holds the tags of just those streams
that its window may still take. -/
structure Listing.Proper (suite : Suite) (id : PeriodId) (l : Listing) : Prop where
  pair : l.link.toPair = id.toPair
  tagKey : l.tagKey = suite.tagKey l.link.side.other l.key
  lists : ∀ (n : Nat) (tag : Tag),
    l.tags[n]? = some tag ↔ n ∈ l.window.unseen ∧ tag = suite.tag l.tagKey n

theorem Listing.proper_ofSecret (s : PeriodSecret) :
    (Listing.ofSecret suite s).Proper suite s.id where
  pair := rfl
  tagKey := rfl
  lists n tag := by
    rw [Directory.lists_ofSecret_iff, eq_comm]
    rfl

/-- A listing stays proper with the window it has after a mark. -/
theorem Listing.Proper.mark {id : PeriodId} {l : Listing} {window : SeenWindow} {n : Nat}
    {entered : List Nat} (proper : l.Proper suite id) (marks : l.window.mark? n = some (window, entered))
    (whole : l.window.Whole) (whole' : window.Whole) :
    Listing.Proper suite id { l with
      window := window
      tags := Directory.recordTags (Directory.tagsOf suite l.tagKey entered) (l.tags.erase n) } where
  pair := proper.pair
  tagKey := proper.tagKey
  lists m tag := by
    simp only [Directory.getElem?_recordTags, ExtTreeMap.getElem?_erase,
      LawfulEqCmp.compare_eq_iff_eq, SeenWindow.mem_unseen_of_mark? marks whole whole']
    have before := proper.lists m tag
    grind

/-- A proper listing is told by its secret and its window. -/
theorem Listing.Proper.eq {id : PeriodId} {l l' : Listing} (proper : l.Proper suite id)
    (proper' : l'.Proper suite id) (link : l.link = l'.link) (key : l.key = l'.key)
    (window : l.window = l'.window) : l = l' := by
  have tagKey : l.tagKey = l'.tagKey := by rw [proper.tagKey, proper'.tagKey, link, key]
  have tags : l.tags = l'.tags := by
    refine ExtTreeMap.ext_getElem? fun n => Option.ext fun tag => ?_
    rw [proper.lists, proper'.lists, window, tagKey]
  cases l
  cases l'
  simp_all

namespace Directory

variable {d d' : Directory} {id : PeriodId} {n : Nat} {tag : Tag}

/-! ## Awaited streams -/

/-- The window of the listed secret `id` may still take a stream, which has this tag. -/
def Awaits (suite : Suite) (d : Directory) (id : PeriodId) (n : Nat) (tag : Tag) : Prop :=
  ∃ l, d.listings[id]? = some l ∧ n ∈ l.window.unseen ∧
    tag = suite.tag (suite.tagKey l.link.side.other l.key) n

/-- The awaited streams with their tags, secret by secret. -/
def awaited (suite : Suite) (d : Directory) : List (Tag × PeriodId × Nat) :=
  d.listings.toList.flatMap fun (id, l) =>
    l.window.unseen.map fun n => (suite.tag (suite.tagKey l.link.side.other l.key) n, id, n)

theorem mem_awaited : (tag, id, n) ∈ d.awaited suite ↔ d.Awaits suite id n tag := by
  simp only [awaited, Awaits, List.mem_flatMap, List.mem_map, Prod.exists, Prod.mk.injEq,
    ExtTreeMap.mem_toList_iff_getElem?_eq_some]
  constructor
  · rintro ⟨id, l, there, n, mem, rfl, rfl, rfl⟩
    exact ⟨l, there, mem, rfl⟩
  · rintro ⟨l, there, mem, rfl⟩
    exact ⟨id, l, there, n, mem, rfl, rfl, rfl⟩

theorem nodup_awaited (suite : Suite) (d : Directory) : (d.awaited suite).Nodup := by
  rw [awaited, List.nodup_flatMap]
  constructor
  · rintro ⟨id, l⟩ -
    refine l.window.nodup_unseen.map fun n m same => ?_
    exact (Prod.mk.inj (Prod.mk.inj same).2).2
  · refine ExtTreeMap.distinct_keys_toList.imp ?_
    rintro ⟨id, l⟩ ⟨id', l'⟩ differ
    refine List.disjoint_left.2 fun x mem mem' => ?_
    obtain ⟨n, -, rfl⟩ := List.mem_map.1 mem
    obtain ⟨m, -, same⟩ := List.mem_map.1 mem'
    exact differ (LawfulEqCmp.compare_eq_iff_eq.2 (Prod.mk.inj (Prod.mk.inj same).2).1.symm)

theorem length_awaited (suite : Suite) (d : Directory) :
    (d.awaited suite).length = (d.listings.values.map (·.window.unseen.length)).sum := by
  rw [awaited, List.length_flatMap, values_eq_map_toList, List.map_map]
  congr 1
  exact List.map_congr_left fun x _ => List.length_map _

/-- Awaited streams that can be read off their tags are told apart. -/
theorem tellApart_of_read (read : Tag → PeriodId × Nat)
    (reads : ∀ x ∈ d.awaited suite, read x.1 = x.2) : TellApart (d.Awaits suite) :=
  .of_read read fun _ _ _ awaits => reads _ (mem_awaited.2 awaits)

/-- No listed window comes near the greatest count. -/
def Whole (d : Directory) : Prop := ∀ l ∈ d.listings.values, l.window.Whole

instance (d : Directory) : Decidable d.Whole := inferInstanceAs (Decidable (∀ _ ∈ _, _))

theorem whole_empty : empty.Whole := by
  intro l mem
  obtain ⟨id, there⟩ := mem_values.1 mem
  simp at there

theorem Whole.listing (whole : d.Whole) {l : Listing} (there : d.listings[id]? = some l) :
    l.window.Whole := whole l (mem_values.2 ⟨id, there⟩)

/-! ## Tidy directories -/

/-- A tag that leads to a stream is listed for it. -/
structure Tidy (d : Directory) : Prop where
  lists : ∀ (tag : Tag) (id : PeriodId) (n : Nat), d.tags[tag]? = some (id, n) → d.Lists id n tag

theorem Tidy.remove (tidy : d.Tidy) (removed : PeriodId) : (d.remove removed).Tidy where
  lists tag id n leads := by
    have lists : d.Lists id n tag ∧ removed ≠ id := by
      unfold Directory.remove at leads
      cases gone : d.listings[removed]? with
      | none =>
        rw [gone] at leads
        obtain ⟨l, there, listed⟩ := tidy.lists tag id n leads
        refine ⟨⟨l, there, listed⟩, ?_⟩
        rintro rfl
        rw [gone] at there
        cases there
      | some listing =>
        simp only [gone, getElem?_foldl_erase] at leads
        obtain ⟨kept, leads⟩ := Option.ite_none_left_eq_some.1 leads
        obtain ⟨l, there, listed⟩ := tidy.lists tag id n leads
        refine ⟨⟨l, there, listed⟩, ?_⟩
        -- All tags that the listing holds are erased with it.
        rintro rfl
        obtain rfl := Option.some.inj (gone.symm.trans there)
        exact kept (mem_values.2 ⟨n, listed⟩)
    obtain ⟨⟨l, there, listed⟩, other⟩ := lists
    exact ⟨l, by rw [getElem?_listings_remove, if_neg other, there], listed⟩

theorem Tidy.removeAll (tidy : d.Tidy) (ids : List PeriodId) :
    (ids.foldl (fun d id => d.remove id) d).Tidy := by
  induction ids generalizing d with
  | nil => exact tidy
  | cons first ids ih => exact ih (tidy.remove first)

theorem Tidy.add (tidy : d.Tidy) (s : PeriodSecret) : (d.add suite s).Tidy where
  lists tag id n leads := by
    simp only [Directory.add, getElem?_pointTags, Option.or_eq_some_iff] at leads
    obtain made | ⟨-, leads⟩ := leads
    · obtain ⟨m, found, eq⟩ := Option.map_eq_some_iff.1 made
      obtain ⟨rfl, rfl⟩ := Prod.mk.inj eq
      have mem := List.mem_reverse.1 (List.mem_of_find?_eq_some found)
      refine ⟨_, by rw [getElem?_listings_add, if_pos rfl], lists_ofSecret_iff.2 ⟨mem, ?_⟩⟩
      simpa using List.find?_some found
    · obtain ⟨l, there, listed⟩ := (tidy.remove s.id).lists tag id n leads
      rw [getElem?_listings_remove] at there
      obtain ⟨other, there⟩ := Option.ite_none_left_eq_some.1 there
      exact ⟨l, by rw [getElem?_listings_add, if_neg other, there], listed⟩

/-- What a tag leads to after a stream was marked entered the window, or it was led to before by another
tag than that of the marked stream. -/
theorem Tidy.advance (tidy : d.Tidy) {listing : Listing} {number : Nat} {window : SeenWindow}
    {entered : List Nat} (there : d.listings[id]? = some listing)
    (own_tag : ∀ (n : Nat) (tag : Tag),
      listing.tags[n]? = some tag → tag = suite.tag listing.tagKey n)
    (leads : d.tags[tag]? = some (id, number)) :
    (Registry.advance d id listing tag number window
      (tagsOf suite listing.tagKey entered)).Tidy where
  lists tag' id' n leads' := by
    simp only [Registry.advance, getElem?_pointTags, Option.or_eq_some_iff] at leads'
    obtain made | ⟨stale, leads'⟩ := leads'
    · obtain ⟨m, found, eq⟩ := Option.map_eq_some_iff.1 made
      obtain ⟨rfl, rfl⟩ := Prod.mk.inj eq
      have mem := List.mem_reverse.1 (List.mem_of_find?_eq_some found)
      obtain rfl : suite.tag listing.tagKey m = tag' := by simpa using List.find?_some found
      exact ⟨_, by rw [Registry.getElem?_listings_advance, if_pos rfl],
        by rw [getElem?_recordTags, if_pos mem]⟩
    · rw [ExtTreeMap.getElem?_erase] at leads'
      obtain ⟨other, leads'⟩ := Option.ite_none_left_eq_some.1 leads'
      obtain ⟨l, there', listed⟩ := tidy.lists tag' id' n leads'
      by_cases own : id = id'
      · subst own
        obtain rfl := Option.some.inj (there.symm.trans there')
        have unmarked : n ≠ number := by
          rintro rfl
          obtain ⟨l, there', marked⟩ := tidy.lists tag id n leads
          obtain rfl := Option.some.inj (there.symm.trans there')
          exact other (LawfulEqCmp.compare_eq_iff_eq.2 (Option.some.inj (marked.symm.trans listed)))
        refine ⟨_, by rw [Registry.getElem?_listings_advance, if_pos rfl], ?_⟩
        have old : n ∉ entered := by
          intro mem
          have led := List.find?_eq_none.1 (Option.map_eq_none_iff.1 stale) n (List.mem_reverse.2 mem)
          exact led (by simpa using (own_tag n tag' listed).symm)
        rw [getElem?_recordTags, if_neg old, ExtTreeMap.getElem?_erase, if_neg, listed]
        exact fun same => unmarked (LawfulEqCmp.compare_eq_iff_eq.1 same).symm
      · exact ⟨l, by rw [Registry.getElem?_listings_advance, if_neg own, there'], listed⟩

theorem Tidy.addAll (tidy : d.Tidy) (secrets : List PeriodSecret) :
    (secrets.foldl (fun d s => d.add suite s) d).Tidy := by
  induction secrets generalizing d with
  | nil => exact tidy
  | cons first secrets ih => exact ih (tidy.add first)

/-! ## Exact directories -/

/-- All listings are proper, and the tags are those of the awaited streams, each leading to its own. -/
structure Exact (suite : Suite) (d : Directory) : Prop where
  proper : ∀ (id : PeriodId) (l : Listing), d.listings[id]? = some l → l.Proper suite id
  leads_iff : ∀ (tag : Tag) (id : PeriodId) (n : Nat),
    d.tags[tag]? = some (id, n) ↔ d.Awaits suite id n tag

/-- Proper listings hold the tags of the awaited streams. -/
theorem lists_iff_awaits
    (proper : ∀ (id : PeriodId) (l : Listing), d.listings[id]? = some l → l.Proper suite id) :
    d.Lists id n tag ↔ d.Awaits suite id n tag := by
  refine exists_congr fun l => and_congr_right fun there => ?_
  rw [(proper id l there).lists, (proper id l there).tagKey]

theorem exact_empty : Exact suite empty where
  proper id l there := by simp at there
  leads_iff tag id n := by simp [Awaits, empty]

/-- A directory is exact if it is complete, tidy, and all its listings are proper. -/
theorem Complete.exact (complete : d.Complete suite) (tidy : d.Tidy)
    (proper : ∀ (id : PeriodId) (l : Listing), d.listings[id]? = some l → l.Proper suite id) :
    d.Exact suite where
  proper := proper
  leads_iff tag id n := by
    rw [← lists_iff_awaits proper]
    constructor
    · exact tidy.lists tag id n
    · rintro ⟨l, there, listed⟩
      exact (complete.tags id l n tag there listed).2

namespace Exact

variable (ex : d.Exact suite)
include ex

theorem tidy : d.Tidy where
  lists tag id n leads := (lists_iff_awaits ex.proper).2 ((ex.leads_iff tag id n).1 leads)

/-- A tag leads to one stream. -/
theorem tellApart : TellApart (d.Awaits suite) := by
  intro id n id' n' tag awaits awaits'
  have leads := (ex.leads_iff tag id n).2 awaits
  rw [(ex.leads_iff tag id' n').2 awaits', Option.some.injEq, Prod.mk.injEq] at leads
  exact leads.imp Eq.symm Eq.symm

theorem complete : d.Complete suite where
  tags id l n tag there listed := by
    refine ⟨(((ex.proper id l there).lists n tag).1 listed).2, (ex.leads_iff tag id n).2 ?_⟩
    exact (lists_iff_awaits ex.proper).1 ⟨l, there, listed⟩
  unseen id l n there lt covers fresh := by
    have listed := ((ex.proper id l there).lists n _).2
      ⟨SeenWindow.mem_unseen.2 ⟨covers, fresh, lt.le⟩, rfl⟩
    rw [ExtTreeMap.mem_iff_isSome_getElem?, listed, Option.isSome_some]

/-- The tags with what they lead to are the awaited streams. -/
theorem perm_awaited : d.tags.toList.Perm (d.awaited suite) := by
  have distinct : d.tags.toList.Nodup := by
    refine ExtTreeMap.distinct_keys_toList.imp ?_
    rintro x _ differ rfl
    exact differ (LawfulEqCmp.compare_eq_iff_eq.2 rfl)
  rw [List.perm_ext_iff_of_nodup distinct (nodup_awaited suite d)]
  rintro ⟨tag, id, n⟩
  rw [ExtTreeMap.mem_toList_iff_getElem?_eq_some, ex.leads_iff, mem_awaited]

/-- There are as many tags as streams that the listed windows may still take. -/
theorem size_tags : d.tags.size = (d.listings.values.map (·.window.unseen.length)).sum := by
  rw [← ExtTreeMap.length_toList, ex.perm_awaited.length_eq, length_awaited]

theorem removeAll (ids : List PeriodId) :
    (ids.foldl (fun d id => d.remove id) d).Exact suite := by
  induction ids generalizing d with
  | nil => exact ex
  | cons removed ids ih =>
    refine ih ((ex.complete.remove removed).exact (ex.tidy.remove removed) ?_)
    intro id l there
    rw [getElem?_listings_remove] at there
    exact ex.proper id l (Option.ite_none_left_eq_some.1 there).2

theorem add {s : PeriodSecret} (apart : TellApart ((d.add suite s).Awaits suite)) :
    (d.add suite s).Exact suite := by
  have proper (id : PeriodId) (l : Listing) (there : (d.add suite s).listings[id]? = some l) :
      l.Proper suite id := by
    rw [getElem?_listings_add] at there
    split at there
    · rename_i own
      cases there
      exact own ▸ Listing.proper_ofSecret s
    · exact ex.proper id l there
  refine (ex.complete.add ?_).exact (ex.tidy.add s) proper
  exact apart.mono fun id n tag => (lists_iff_awaits proper).1

/-- Listing secrets leaves a directory exact if those that were listed before are listed as they were. -/
theorem addAll {secrets : List PeriodSecret}
    (named : ∀ x ∈ secrets, ∀ y ∈ secrets, x.id = y.id → x = y)
    (again : ∀ (id : PeriodId) (l : Listing), d.listings[id]? = some l →
      (secrets.foldl (fun d s => d.add suite s) d).listings[id]? = some l)
    (apart : TellApart ((secrets.foldl (fun d s => d.add suite s) d).Awaits suite)) :
    (secrets.foldl (fun d s => d.add suite s) d).Exact suite := by
  have proper (id : PeriodId) (l : Listing)
      (there : (secrets.foldl (fun d s => d.add suite s) d).listings[id]? = some l) :
      l.Proper suite id := by
    rw [getElem?_listings_addAll, Option.or_eq_some_iff] at there
    rcases there with made | ⟨-, there⟩
    · obtain ⟨x, found, rfl⟩ := Option.map_eq_some_iff.1 made
      obtain rfl : x.id = id := by simpa using List.find?_some found
      exact Listing.proper_ofSecret x
    · exact ex.proper id l there
  refine (ex.complete.addAll named ?_).exact (ex.tidy.addAll secrets) proper
  refine apart.mono fun id n tag lists => (lists_iff_awaits proper).1 ?_
  rcases lists with ⟨l, there, listed⟩ | lists
  · exact ⟨l, again id l there, listed⟩
  · exact lists

/-- Exact directories that list the same secrets in the same way are equal. -/
theorem eq_of_listings (ex' : d'.Exact suite) (same : d.listings = d'.listings) : d = d' := by
  have tags : d.tags = d'.tags := by
    refine ExtTreeMap.ext_getElem? fun tag => Option.ext fun ⟨id, n⟩ => ?_
    rw [ex.leads_iff, ex'.leads_iff, Awaits, Awaits, same]
  cases d
  cases d'
  simp_all

theorem recognizes {bytes : Bytes} {ticket : Ticket} {window : SeenWindow} {d' : Directory}
    (recognizes : Registry.Recognizes suite bytes d id ticket window d') (whole : d.Whole)
    (whole' : d'.Whole) (apart : TellApart (d'.Awaits suite)) : d'.Exact suite := by
  obtain ⟨listing, entered, tag, there, leads, marks, -, rfl⟩ := recognizes.listed
  have proper (id' : PeriodId) (l : Listing)
      (there' : (Registry.advance d id listing tag ticket.stream window
        (tagsOf suite listing.tagKey entered)).listings[id']? = some l) : l.Proper suite id' := by
    have whole_moved := whole'.listing there'
    rw [Registry.getElem?_listings_advance] at there'
    split at there'
    · rename_i own
      cases there'
      exact own ▸ (ex.proper id listing there).mark marks (whole.listing there) whole_moved
    · exact ex.proper id' l there'
  refine (Registry.complete_advance ex.complete there leads marks ?_).exact
    (ex.tidy.advance there (fun n tag listed =>
      (((ex.proper id listing there).lists n tag).1 listed).2) leads) proper
  exact apart.mono fun id n tag => (lists_iff_awaits proper).1

end Exact

end Directory

end SealedStream
