import Mathlib.Data.List.Induction
import SealedStream.Proofs.Directory
import SealedStream.Proofs.Maps
import SealedStream.Proofs.SeenWindow

/-!
# Every listed tag is found

As long as no two streams have one tag, a tag that is listed leads to its stream, whatever was listed
before and taken out since. The streams that a window covers and has not seen are all listed.

## Main definitions

* `Directory.Lists` — a stream is listed under a tag.
* `Directory.Complete` — listed tags are found, and unseen streams are listed.

## Main statements

* `Directory.Complete.removeAll`, `Directory.Complete.addAll`, `Registry.complete_advance` — what
  leaves a directory complete.
-/

namespace SealedStream

open Std

/-- No tag is told of two streams. -/
def TellApart (lists : PeriodId → Nat → Tag → Prop) : Prop :=
  ∀ id n id' n' tag, lists id n tag → lists id' n' tag → id = id' ∧ n = n'

theorem TellApart.mono {lists lists' : PeriodId → Nat → Tag → Prop} (apart : TellApart lists)
    (le : ∀ id n tag, lists' id n tag → lists id n tag) : TellApart lists' :=
  fun id n id' n' tag there there' => apart id n id' n' tag (le id n tag there) (le id' n' tag there')

/-- Streams that can be read off their tags have different ones. -/
theorem TellApart.of_read {lists : PeriodId → Nat → Tag → Prop} (read : Tag → PeriodId × Nat)
    (reads : ∀ id n tag, lists id n tag → read tag = (id, n)) : TellApart lists := by
  intro id n id' n' tag there there'
  exact Prod.mk.inj ((reads id n tag there).symm.trans (reads id' n' tag there'))

namespace Directory

/-- The directory lists a stream of the secret `id` under a tag. -/
def Lists (d : Directory) (id : PeriodId) (stream : Nat) (tag : Tag) : Prop :=
  ∃ l, d.listings[id]? = some l ∧ l.tags[stream]? = some tag

/-- Listed tags are those of their streams and lead to them. All streams that a window covers and has
not seen are listed. -/
structure Complete (suite : Suite) (d : Directory) : Prop where
  tags : ∀ (id : PeriodId) (l : Listing) (stream : Nat) (tag : Tag), d.listings[id]? = some l →
    l.tags[stream]? = some tag → tag = suite.tag l.tagKey stream ∧ d.tags[tag]? = some (id, stream)
  unseen : ∀ (id : PeriodId) (l : Listing) (stream : Nat), d.listings[id]? = some l →
    stream < Count.top → l.window.Covers stream → ¬ l.window.Seen stream → stream ∈ l.tags

variable {suite : Suite} {d : Directory} {id : PeriodId} {key : Key} {numbers : List Nat}

/-! ## The two maps -/

theorem getElem?_recordTags (tags : ExtTreeMap Nat Tag) (n : Nat) :
    (recordTags (tagsOf suite key numbers) tags)[n]? =
      if n ∈ numbers then some (suite.tag key n) else tags[n]? := by
  induction numbers generalizing tags with
  | nil => simp [recordTags, tagsOf]
  | cons first numbers ih =>
    have step : recordTags (tagsOf suite key (first :: numbers)) tags =
        recordTags (tagsOf suite key numbers) (tags.insert first (suite.tag key first)) := rfl
    rw [step, ih, ExtTreeMap.getElem?_insert]
    simp only [LawfulEqCmp.compare_eq_iff_eq]
    grind

/-- Of the streams with one tag, the tag leads to the last one. -/
theorem getElem?_pointTags (tags : ExtTreeMap Tag (PeriodId × Nat)) (tag : Tag) :
    (pointTags id (tagsOf suite key numbers) tags)[tag]? =
      ((numbers.reverse.find? (suite.tag key · = tag)).map (id, ·)).or tags[tag]? := by
  induction numbers generalizing tags with
  | nil => simp [pointTags, tagsOf]
  | cons first numbers ih =>
    have step : pointTags id (tagsOf suite key (first :: numbers)) tags =
        pointTags id (tagsOf suite key numbers) (tags.insert (suite.tag key first) (id, first)) := rfl
    rw [step, ih, ExtTreeMap.getElem?_insert, List.reverse_cons, List.find?_append]
    simp only [LawfulEqCmp.compare_eq_iff_eq]
    cases numbers.reverse.find? (suite.tag key · = tag) <;>
      by_cases own : suite.tag key first = tag <;> simp [own]

/-- A tag leads to its stream if it is that of no other new stream. -/
theorem getElem?_pointTags_of_mem {tags : ExtTreeMap Tag (PeriodId × Nat)} {n : Nat}
    (mem : n ∈ numbers) (only : ∀ m ∈ numbers, suite.tag key m = suite.tag key n → m = n) :
    (pointTags id (tagsOf suite key numbers) tags)[suite.tag key n]? = some (id, n) := by
  rw [getElem?_pointTags]
  cases found : numbers.reverse.find? (suite.tag key · = suite.tag key n) with
  | none => exact absurd (List.find?_eq_none.1 found n (List.mem_reverse.2 mem)) (by simp)
  | some m =>
    have same := only m (List.mem_reverse.1 (List.mem_of_find?_eq_some found))
      (by simpa using List.find?_some found)
    simp [same]

/-- A tag leads where it did if it is that of no new stream. -/
theorem getElem?_pointTags_of_forall {tags : ExtTreeMap Tag (PeriodId × Nat)} {tag : Tag}
    (none : ∀ n ∈ numbers, suite.tag key n ≠ tag) :
    (pointTags id (tagsOf suite key numbers) tags)[tag]? = tags[tag]? := by
  rw [getElem?_pointTags, List.find?_eq_none.2 (by simpa using none), Option.map_none, Option.none_or]

/-! ## Taking secrets out -/

/-- With a secret go all tags that were listed for it, whatever they lead to. -/
theorem getElem?_tags_remove {removed : PeriodId} {tag : Tag} :
    ((∃ n, d.Lists removed n tag) → (d.remove removed).tags[tag]? = none) ∧
      ((∀ n, ¬ d.Lists removed n tag) → (d.remove removed).tags[tag]? = d.tags[tag]?) := by
  unfold Directory.remove Lists
  cases there : d.listings[removed]? with
  | none => simp
  | some listing =>
    have erased : tag ∈ listing.tags.values ↔
        ∃ (n : Nat) (l : Listing), some listing = some l ∧ l.tags[n]? = some tag := by
      simp [mem_values]
    simp only [getElem?_foldl_erase, ← not_exists, ← erased]
    exact ⟨fun mem => if_pos mem, fun absent => if_neg absent⟩

theorem getElem?_tags_removeAll {ids : List PeriodId} {tag : Tag} :
    ((∃ id ∈ ids, ∃ n, d.Lists id n tag) →
        (ids.foldl (fun d id => d.remove id) d).tags[tag]? = none) ∧
      ((∀ id ∈ ids, ∀ n, ¬ d.Lists id n tag) →
        (ids.foldl (fun d id => d.remove id) d).tags[tag]? = d.tags[tag]?) := by
  induction ids generalizing d with
  | nil => simp
  | cons first ids ih =>
    have later {id : PeriodId} {n : Nat} :
        (d.remove first).Lists id n tag ↔ first ≠ id ∧ d.Lists id n tag := by
      simp only [Lists, getElem?_listings_remove, Option.ite_none_left_eq_some, and_assoc,
        exists_and_left]
    rw [List.foldl_cons]
    by_cases own : ∃ n, d.Lists first n tag
    · have erased := getElem?_tags_remove.1 own
      refine ⟨fun _ => ?_, fun absent => absurd own (by simpa using absent first (by simp))⟩
      -- Once it is erased, a tag does not come back.
      by_cases more : ∃ id ∈ ids, ∃ n, (d.remove first).Lists id n tag
      · exact ih.1 more
      · rw [ih.2 (by simpa using more), erased]
    · have kept := getElem?_tags_remove.2 (not_exists.1 own)
      rw [← kept]
      refine ⟨?_, fun absent => ih.2 fun id mem n lists =>
        absent id (List.mem_cons_of_mem _ mem) n (later.1 lists).2⟩
      rintro ⟨id, mem, n, lists⟩
      have other : first ≠ id := by
        rintro rfl
        exact own ⟨n, lists⟩
      exact ih.1 ⟨id, List.mem_of_ne_of_mem other.symm mem, n, later.2 ⟨other, lists⟩⟩

/-- With the secrets of some identities go all tags that were listed for them. -/
theorem getElem?_tags_removeWhere {p : PeriodId → Bool} {tag : Tag} :
    ((∃ id, p id ∧ ∃ n, d.Lists id n tag) → (d.removeWhere p).tags[tag]? = none) ∧
      ((∀ id, p id → ∀ n, ¬ d.Lists id n tag) → (d.removeWhere p).tags[tag]? = d.tags[tag]?) := by
  have removes {id : PeriodId} {n : Nat} (lists : d.Lists id n tag) :
      id ∈ d.listings.keys.filter p ↔ p id := by
    obtain ⟨l, there, -⟩ := lists
    simp [ExtTreeMap.mem_iff_isSome_getElem?, there]
  refine ⟨?_, fun absent => getElem?_tags_removeAll.2 fun id mem n =>
    absent id (List.mem_filter.1 mem).2 n⟩
  rintro ⟨id, holds, n, lists⟩
  exact getElem?_tags_removeAll.1 ⟨id, (removes lists).2 holds, n, lists⟩

/-- The tags of the other secrets stay, for they lead to these. -/
theorem Complete.remove (complete : Complete suite d) (removed : PeriodId) :
    Complete suite (d.remove removed) := by
  have before {id : PeriodId} {l : Listing} (there : (d.remove removed).listings[id]? = some l) :
      removed ≠ id ∧ d.listings[id]? = some l := by
    rw [getElem?_listings_remove] at there
    simpa using there
  refine ⟨?_, fun id l n there => complete.unseen id l n (before there).2⟩
  intro id l n tag there listed
  obtain ⟨other, there⟩ := before there
  obtain ⟨eq, leads⟩ := complete.tags id l n tag there listed
  refine ⟨eq, ?_⟩
  unfold Directory.remove
  cases gone : d.listings[removed]? with
  | none => exact leads
  | some listing =>
    dsimp only
    rw [getElem?_foldl_erase, if_neg, leads]
    intro mem
    obtain ⟨m, listed'⟩ := mem_values.1 mem
    obtain ⟨-, leads'⟩ := complete.tags removed listing m tag gone listed'
    rw [leads] at leads'
    cases leads'
    exact other rfl

theorem Complete.removeAll (complete : Complete suite d) (ids : List PeriodId) :
    Complete suite (ids.foldl (fun d id => d.remove id) d) := by
  induction ids generalizing d with
  | nil => exact complete
  | cons first ids ih => exact ih (complete.remove first)

/-! ## Adding secrets -/

theorem lists_ofSecret_iff {s : PeriodSecret} {n : Nat} {tag : Tag} :
    (Listing.ofSecret suite s).tags[n]? = some tag ↔
      n ∈ s.incoming.unseen ∧ suite.tag (suite.tagKey s.link.side.other s.key) n = tag := by
  rw [Listing.ofSecret, getElem?_recordTags]
  split <;> simp_all

/-- Adding a secret leaves all tags found if they are told apart afterwards. -/
theorem Complete.add (complete : Complete suite d) {s : PeriodSecret}
    (apart : TellApart (d.add suite s).Lists) : Complete suite (d.add suite s) := by
  have cleared := complete.remove s.id
  have own_lists {n : Nat} (mem : n ∈ s.incoming.unseen) :
      (d.add suite s).Lists s.id n (suite.tag (suite.tagKey s.link.side.other s.key) n) :=
    ⟨_, by rw [getElem?_listings_add, if_pos rfl], lists_ofSecret_iff.2 ⟨mem, rfl⟩⟩
  have before {id : PeriodId} {l : Listing} (other : s.id ≠ id)
      (there : (d.add suite s).listings[id]? = some l) :
      (d.remove s.id).listings[id]? = some l := by
    rw [getElem?_listings_add, if_neg other] at there
    rw [getElem?_listings_remove, if_neg other, there]
  constructor
  · intro id l n tag there listed
    have lists : (d.add suite s).Lists id n tag := ⟨l, there, listed⟩
    by_cases own : s.id = id
    · subst own
      rw [getElem?_listings_add, if_pos rfl] at there
      cases there
      obtain ⟨mem, rfl⟩ := lists_ofSecret_iff.1 listed
      refine ⟨rfl, getElem?_pointTags_of_mem mem fun m mem' same => ?_⟩
      exact (apart _ _ _ _ _ (same ▸ own_lists mem') lists).2
    · obtain ⟨eq, leads⟩ := cleared.tags id l n tag (before own there) listed
      refine ⟨eq, (getElem?_pointTags_of_forall fun m mem same => ?_).trans leads⟩
      exact own (apart _ _ _ _ _ (same ▸ own_lists mem) lists).1
  · intro id l n there lt covers fresh
    by_cases own : s.id = id
    · rw [getElem?_listings_add, if_pos own] at there
      cases there
      have mem : n ∈ s.incoming.unseen := SeenWindow.mem_unseen.2 ⟨covers, fresh, lt.le⟩
      rw [ExtTreeMap.mem_iff_isSome_getElem?, lists_ofSecret_iff.2 ⟨mem, rfl⟩, Option.isSome_some]
    · exact cleared.unseen id l n (before own there) lt covers fresh

/-- The same for several secrets, each with an identity of its own. -/
theorem Complete.addAll (complete : Complete suite d) {secrets : List PeriodSecret}
    (named : ∀ x ∈ secrets, ∀ y ∈ secrets, x.id = y.id → x = y)
    (apart : TellApart fun id n tag =>
      d.Lists id n tag ∨ (secrets.foldl (fun d s => d.add suite s) d).Lists id n tag) :
    Complete suite (secrets.foldl (fun d s => d.add suite s) d) := by
  induction secrets using List.reverseRecOn with
  | nil => exact complete
  | append_singleton secrets s ih =>
    rw [List.foldl_append, List.foldl_cons, List.foldl_nil] at apart ⊢
    generalize mid_eq : secrets.foldl (fun d s => d.add suite s) d = mid at ih apart ⊢
    -- What is listed halfway was listed at first or is listed in the end.
    have halfway (id : PeriodId) (n : Nat) (tag : Tag) (lists : mid.Lists id n tag) :
        d.Lists id n tag ∨ (mid.add suite s).Lists id n tag := by
      obtain ⟨l, there, listed⟩ := lists
      by_cases own : s.id = id
      · rw [← mid_eq, getElem?_listings_addAll, Option.or_eq_some_iff] at there
        rcases there with made | ⟨-, there⟩
        · obtain ⟨x, found, rfl⟩ := Option.map_eq_some_iff.1 made
          have same : x.id = id := by simpa using List.find?_some found
          have mem := List.mem_reverse.1 (List.mem_of_find?_eq_some found)
          obtain rfl : x = s := named x (by simp [mem]) s (by simp) (same.trans own.symm)
          exact .inr ⟨_, by rw [getElem?_listings_add, if_pos own], listed⟩
        · exact .inl ⟨l, there, listed⟩
      · exact .inr ⟨l, by rw [getElem?_listings_add, if_neg own, there], listed⟩
    have complete_mid := ih (fun x mem y mem' => named x (by simp [mem]) y (by simp [mem']))
      (apart.mono fun id n tag lists => lists.elim .inl (halfway id n tag))
    exact complete_mid.add (apart.mono fun id n tag lists => .inr lists)

end Directory

/-! ## Moving a window -/

namespace Registry

open Directory

variable {suite : Suite} {d : Directory} {id : PeriodId} {listing : Listing} {tag : Tag} {number : Nat}
  {window : SeenWindow} {entered : List Nat}

section Advance

variable (complete : Complete suite d) (there : d.listings[id]? = some listing)
  (leads : d.tags[tag]? = some (id, number))
  (marks : listing.window.mark? number = some (window, entered))

include complete there leads in
/-- Listed tags are found after a stream was marked. What entered the window is found since it was
pointed to last, and the others since they are not the tag that was erased. -/
theorem tags_advance :
    let d' := advance d id listing tag number window (tagsOf suite listing.tagKey entered)
    TellApart d'.Lists → ∀ (id' : PeriodId) (l : Listing) (n : Nat) (tag' : Tag),
      d'.listings[id']? = some l → l.tags[n]? = some tag' →
        tag' = suite.tag l.tagKey n ∧ d'.tags[tag']? = some (id', n) := by
  intro d' apart id' l n tag' there' listed
  have lists : d'.Lists id' n tag' := ⟨l, there', listed⟩
  have entered_lists {m : Nat} (mem : m ∈ entered) : d'.Lists id m (suite.tag listing.tagKey m) :=
    ⟨_, by rw [getElem?_listings_advance, if_pos rfl], by rw [getElem?_recordTags, if_pos mem]⟩
  have kept (leads' : d.tags[tag']? = some (id', n)) (other : (id', n) ≠ (id, number)) :
      (d.tags.erase tag)[tag']? = some (id', n) := by
    rw [ExtTreeMap.getElem?_erase, if_neg, leads']
    intro same
    obtain rfl := LawfulEqCmp.compare_eq_iff_eq.1 same
    exact other (Option.some.inj (leads'.symm.trans leads))
  rw [getElem?_listings_advance] at there'
  split at there'
  · rename_i own
    subst own
    cases there'
    rw [getElem?_recordTags, ExtTreeMap.getElem?_erase] at listed
    have only {m : Nat} (mem : m ∈ entered) (same : suite.tag listing.tagKey m = tag') : m = n :=
      (apart _ _ _ _ _ (same ▸ entered_lists mem) lists).2
    split at listed
    · rename_i mem
      cases listed
      exact ⟨rfl, getElem?_pointTags_of_mem mem fun m => only⟩
    · rename_i old
      split at listed
      · cases listed
      rename_i unmarked
      obtain ⟨eq, leads'⟩ := complete.tags id listing n tag' there listed
      refine ⟨eq, (getElem?_pointTags_of_forall fun m mem same => ?_).trans (kept leads' ?_)⟩
      · exact old (only mem same ▸ mem)
      · rintro ⟨⟩
        exact unmarked (LawfulEqCmp.compare_eq_iff_eq.2 rfl)
  · rename_i other
    obtain ⟨eq, leads'⟩ := complete.tags id' l n tag' there' listed
    refine ⟨eq, (getElem?_pointTags_of_forall fun m mem same => ?_).trans (kept leads' ?_)⟩
    · exact other (apart _ _ _ _ _ (same ▸ entered_lists mem) lists).1
    · rintro ⟨⟩
      exact other rfl

include complete there marks in
/-- What a window has not seen after a mark is listed: it was before, or it entered with the mark. -/
theorem unseen_advance :
    let d' := advance d id listing tag number window (tagsOf suite listing.tagKey entered)
    ∀ (id' : PeriodId) (l : Listing) (n : Nat), d'.listings[id']? = some l → n < Count.top →
      l.window.Covers n → ¬ l.window.Seen n → n ∈ l.tags := by
  intro d' id' l n there' lt covers fresh
  rw [getElem?_listings_advance] at there'
  split at there'
  · cases there'
    rw [ExtTreeMap.mem_iff_isSome_getElem?, getElem?_recordTags, ExtTreeMap.getElem?_erase]
    obtain ⟨unmarked, ⟨covers', fresh'⟩ | mem⟩ := SeenWindow.unseen_of_mark? marks lt covers fresh
    · have before := complete.unseen id listing n there lt covers' fresh'
      rw [ExtTreeMap.mem_iff_isSome_getElem?] at before
      split
      · rfl
      · rwa [if_neg (by simpa using unmarked.symm)]
    · rw [if_pos mem, Option.isSome_some]
  · exact complete.unseen id' l n there' lt covers fresh

include complete there leads marks in
/-- Marking a stream leaves all tags found if they are told apart afterwards. -/
theorem complete_advance :
    let d' := advance d id listing tag number window (tagsOf suite listing.tagKey entered)
    TellApart d'.Lists → Complete suite d' :=
  fun apart => ⟨tags_advance complete there leads apart, unseen_advance complete there marks⟩

end Advance

end Registry

end SealedStream
