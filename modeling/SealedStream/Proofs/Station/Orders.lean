import SealedStream.Proofs.Rollover.Orders
import SealedStream.Proofs.Station.Calls
import SealedStream.Proofs.Tags

/-!
# Rotations that go through the pairs in another order

Secrets of different pairs are stored independently of each other. They are also listed independently of
each other, unless a stream of the one has the tag of a stream of the other: then the tag leads to the
secret that was listed last.

## Main definitions

* `Directory.Offers` — a secret has a stream with some tag to be listed.
* `Station.due` — the secrets that a rotation lists.

## Main statements

* `Rollover.Alike.stored_eq`, `Rollover.Alike.persisted_eq` — what a rotation stores.
* `Directory.add_comm`, `Alongside.listAllIn_eq` — what it lists.
* `Station.toExcept_conclude_eq` — what it leaves.
-/

namespace SealedStream

open Std SealedStream.Action

/-! ## Storing -/

theorem Vault.put_comm {rows : ExtTreeMap PeriodId PeriodSecret} {x y : PeriodSecret}
    (differ : x.id ≠ y.id) : put (put rows x) y = put (put rows y) x := by
  refine ExtTreeMap.ext_getElem? fun id => ?_
  simp only [getElem?_put]
  by_cases first : x.id = id
  · have second : y.id ≠ id := fun same => differ (first.trans same.symm)
    simp [first, second]
  · simp [first]

namespace Rollover.Alike

variable {r r' : Rollover}

theorem stored_eq (h : Alike r r') (rows : ExtTreeMap PeriodId PeriodSecret) :
    Station.stored r rows = Station.stored r' rows := by
  refine h.created.foldl_eq (fun _ _ _ _ _ => trivial) (fun rows x y differ _ _ => ?_)
    (G := fun _ _ => True) fun _ _ => trivial
  exact Vault.put_comm fun same => differ (congrArg PeriodId.toPair same)

theorem persisted_eq (h : Alike r r') (rows : ExtTreeMap PeriodId PeriodSecret) :
    Station.persisted r rows = Station.persisted r' rows := by
  rw [Station.persisted, Station.persisted, h.stored_eq]
  refine ExtTreeMap.ext_getElem? fun id => ?_
  rw [Vault.getElem?_eraseAll, Vault.getElem?_eraseAll]
  simp only [h.retired.mem_iff]

end Rollover.Alike

/-! ## Listing -/

namespace Directory

variable {suite : Suite} {d : Directory} {x y : PeriodSecret} {tag : Tag}

/-- A secret has a stream with this tag to be listed. -/
def Offers (suite : Suite) (x : PeriodSecret) (n : Nat) (tag : Tag) : Prop :=
  (Listing.ofSecret suite x).tags[n]? = some tag

/-- Where a tag leads because a secret is listed. -/
def leads? (suite : Suite) (x : PeriodSecret) (tag : Tag) : Option (PeriodId × Nat) :=
  (x.incoming.unseen.reverse.find? (suite.tag (suite.tagKey x.link.side.other x.key) · = tag)).map
    (x.id, ·)

theorem offers_of_leads? {led : PeriodId × Nat} (leads : leads? suite x tag = some led) :
    ∃ n, Offers suite x n tag := by
  obtain ⟨n, found, -⟩ := Option.map_eq_some_iff.1 leads
  have mem := List.mem_reverse.1 (List.mem_of_find?_eq_some found)
  exact ⟨n, lists_ofSecret_iff.2 ⟨mem, by simpa using List.find?_some found⟩⟩

/-- The tags listed for a secret. -/
def tagsListed (d : Directory) (id : PeriodId) : List Tag := (d.listings[id]?).elim [] (·.tags.values)

theorem mem_tagsListed {id : PeriodId} : tag ∈ d.tagsListed id ↔ ∃ n, d.Lists id n tag := by
  unfold tagsListed Lists
  cases d.listings[id]? <;> simp [mem_values]

theorem tagsListed_add (differ : x.id ≠ y.id) : (d.add suite x).tagsListed y.id = d.tagsListed y.id := by
  rw [tagsListed, getElem?_listings_add, if_neg differ, tagsListed]

theorem getElem?_tags_add : (d.add suite x).tags[tag]? =
    (leads? suite x tag).or (if tag ∈ d.tagsListed x.id then none else d.tags[tag]?) := by
  simp only [add, getElem?_pointTags, leads?]
  congr 1
  split
  · rename_i listed
    exact getElem?_tags_remove.1 (mem_tagsListed.1 listed)
  · rename_i unlisted
    exact getElem?_tags_remove.2 fun n there => unlisted (mem_tagsListed.2 ⟨n, there⟩)

theorem lists_add_iff {id : PeriodId} {n : Nat} : (d.add suite x).Lists id n tag ↔
    if x.id = id then Offers suite x n tag else d.Lists id n tag := by
  unfold Lists
  rw [getElem?_listings_add]
  split <;> simp [Offers]

section Apart

variable {lists : PeriodId → Nat → Tag → Prop} (apart : TellApart lists)
include apart

/-- What is listed for one secret leads to no other one. -/
theorem leads?_eq_none {id : PeriodId} {n : Nat} (own : lists id n tag) (differ : id ≠ x.id)
    (offers : ∀ n tag, Offers suite x n tag → lists x.id n tag) : leads? suite x tag = none := by
  by_contra led
  obtain ⟨_, led⟩ := Option.ne_none_iff_exists'.1 led
  obtain ⟨m, offered⟩ := offers_of_leads? led
  exact differ (apart _ _ _ _ _ own (offers m tag offered)).1

theorem not_mem_tagsListed {id id' : PeriodId} {n : Nat} (own : lists id n tag) (differ : id ≠ id')
    (listed : ∀ id n tag, d.Lists id n tag → lists id n tag) : tag ∉ d.tagsListed id' := by
  intro mem
  obtain ⟨m, there⟩ := mem_tagsListed.1 mem
  exact differ (apart _ _ _ _ _ own (listed _ m tag there)).1

/-- Secrets may be listed in any order if their tags, and those that they replace, are told apart. -/
theorem add_comm (listed : ∀ id n tag, d.Lists id n tag → lists id n tag)
    (offersx : ∀ n tag, Offers suite x n tag → lists x.id n tag)
    (offersy : ∀ n tag, Offers suite y n tag → lists y.id n tag) (differ : x.id ≠ y.id) :
    (d.add suite x).add suite y = (d.add suite y).add suite x := by
  have listings : ((d.add suite x).add suite y).listings = ((d.add suite y).add suite x).listings := by
    refine ExtTreeMap.ext_getElem? fun id => ?_
    simp only [getElem?_listings_add]
    by_cases first : x.id = id
    · have second : y.id ≠ id := fun same => differ (first.trans same.symm)
      simp [first, second]
    · simp [first]
  have tags : ((d.add suite x).add suite y).tags = ((d.add suite y).add suite x).tags := by
    refine ExtTreeMap.ext_getElem? fun tag => ?_
    simp only [getElem?_tags_add, tagsListed_add differ, tagsListed_add differ.symm]
    -- A tag is that of a stream of one secret at most.
    cases ledx : leads? suite x tag with
    | some _ =>
      obtain ⟨n, offers⟩ := offers_of_leads? ledx
      have own := offersx n tag offers
      simp [leads?_eq_none apart own differ offersy, not_mem_tagsListed apart own differ listed]
    | none =>
      cases ledy : leads? suite y tag with
      | some _ =>
        obtain ⟨n, offers⟩ := offers_of_leads? ledy
        simp [not_mem_tagsListed apart (offersy n tag offers) differ.symm listed]
      | none =>
        simp only [Option.none_or]
        split <;> simp
  generalize (d.add suite x).add suite y = d₁ at listings tags
  generalize (d.add suite y).add suite x = d₂ at listings tags
  cases d₁
  cases d₂
  simp_all

end Apart

end Directory

/-- If tags are told apart, secrets may be listed in any order of the pairs. -/
theorem Alongside.listAllIn_eq {suite : Suite} {secrets secrets' : List PeriodSecret}
    {lists : PeriodId → Nat → Tag → Prop} (h : Alongside secrets secrets') (apart : TellApart lists)
    (offers : ∀ x ∈ secrets, ∀ n tag, Directory.Offers suite x n tag → lists x.id n tag) {d : Directory}
    (listed : ∀ id n tag, d.Lists id n tag → lists id n tag) :
    Station.listAllIn suite secrets d = Station.listAllIn suite secrets' d := by
  refine h.foldl_eq (G := fun d x => (∀ id n tag, d.Lists id n tag → lists id n tag) ∧
    ∀ n tag, Directory.Offers suite x n tag → lists x.id n tag) ?_ ?_ fun x mem => ⟨listed, offers x mem⟩
  · rintro d x y ⟨listed, offers⟩ ⟨-, offers'⟩
    refine ⟨fun id n tag there => ?_, offers'⟩
    rw [Directory.lists_add_iff] at there
    split at there
    · rename_i own
      exact own ▸ offers n tag there
    · exact listed id n tag there
  · rintro d x y differ ⟨listed, offers⟩ ⟨-, offers'⟩
    exact Directory.add_comm apart listed offers offers' fun same => differ (congrArg PeriodId.toPair same)

/-! ## Concluding -/

namespace Station

variable {suite : Suite} {s : Station} {rounds rounds' : Rounds} {r r' : Rollover}
  {unlisted : ExtTreeSet PeriodId}

/-- The secrets that a rotation lists once its rollover is stored. -/
def due (rounds : Rounds) (unlisted : ExtTreeSet PeriodId) (r : Rollover) : List PeriodSecret :=
  (rounds.pending.arrange (r.held.values.flatMap Trio.secrets)).filter (fun s => s.id ∈ unlisted) ++
    r.created

variable (rounds rounds' unlisted) in
theorem alongside_due (alike : r.Alike r') :
    Alongside (due rounds unlisted r) (due rounds' unlisted r') := by
  unfold due
  rw [alike.held]
  refine Alongside.append (Alongside.filter ?_ _) alike.created
  exact (rounds.pending.alongside _).trans (rounds'.pending.alongside _).symm

/-- The station after the directory took some secrets. -/
def taking (suite : Suite) (secrets : List PeriodSecret) (s : Station) : Station :=
  { s with
    post.intake := { s.post.intake with calls := s.post.intake.calls + secrets.length }
    post.directory := listAllIn suite secrets s.post.directory }

theorem taking_cons (x : PeriodSecret) (secrets : List PeriodSecret) :
    s.taking suite (x :: secrets) = (s.taking suite [x]).taking suite secrets := by
  simp [taking, listAllIn, Nat.add_comm, Nat.add_left_comm]

variable (suite) in
theorem ends_listSecret (willing : s.core.Willing) (x : PeriodSecret) :
    (listSecret suite x).Ends s (.ok ()) (s.taking suite [x]) := by
  have passes : (Gate.pass x).Ends s.post.intake (.ok ())
      { s.post.intake with calls := s.post.intake.calls + 1 } := by
    simp only [Ends, toExcept, Gate.pass,
      show s.post.intake.verdict s.post.intake.calls x = none from willing _ _]
  exact ends_bind_ok_iff.2 ⟨(), _, ends_focus_ok_iff.2 ⟨_, passes, rfl⟩, rfl⟩

variable (suite) in
/-- A directory that refuses no secret takes them all. -/
theorem ends_offer (willing : s.core.Willing) (secrets : List PeriodSecret) :
    (offer suite secrets).Ends s (.ok ([], secrets.map (·.id))) (s.taking suite secrets) := by
  induction secrets generalizing s with
  | nil => rfl
  | cons x secrets ih =>
    have lists := ends_listSecret suite willing x
    rw [taking_cons]
    refine ends_bind_ok_iff.2 ⟨false, s.taking suite [x], ?_, ends_bind_ok_iff.2 ⟨_, _, ih willing, rfl⟩⟩
    simp only [Ends, toExcept] at lists ⊢
    cases ended : listSecret suite x s with
    | ok _ u =>
      simp only [ended] at lists ⊢
      rw [(Prod.mk.inj lists).2]
    | error fault u =>
      rw [ended] at lists
      cases (Prod.mk.inj lists).1

variable (suite rounds r unlisted) in
/-- What a rotation leaves if the directory takes all that it lists: nothing waits to be listed again. -/
theorem ends_conclude (willing : s.core.Willing) :
    (conclude rounds suite unlisted r).Ends s (.ok r.summary)
      (taking suite (due rounds unlisted r)
        { s with keyring := { s.keyring with held := r.held, unlisted := ∅ } }) := by
  let pending := (rounds.pending.arrange (r.held.values.flatMap Trio.secrets)).filter fun s =>
    s.id ∈ unlisted
  let waits := ExtTreeSet.ofList (pending.map (·.id))
  have offers := ends_offer suite
    (s := { s with keyring := { s.keyring with held := r.held, unlisted := waits } }) willing
    (due rounds unlisted r)
  have none : waiting (due rounds unlisted r) [] waits = ∅ := by
    refine ExtTreeSet.ext_mem fun id => ?_
    rw [mem_waiting]
    simp only [List.not_mem_nil, false_and, exists_false, or_false, ExtTreeSet.not_mem_empty, iff_false]
    rintro ⟨wait, taken⟩
    obtain ⟨x, mem, rfl⟩ : ∃ x ∈ pending, x.id = id := by
      simpa [waits, ExtTreeSet.mem_ofList] using wait
    exact taken x (List.mem_append_left _ mem) rfl
  rw [conclude, ends_onKeyring_bind_iff]
  refine ends_bind_ok_iff.2 ⟨(), _, ends_bind_ok_iff.2 ⟨_, _, offers, rfl⟩, ?_⟩
  refine ends_pure_iff.2 ⟨rfl, ?_⟩
  rw [← none]
  rfl

/-- With such a directory, what a rotation leaves does not depend on the order of the pairs, as long as
the listed tags are told apart. -/
theorem toExcept_conclude_eq (willing : s.core.Willing) (alike : r.Alike r')
    {lists : PeriodId → Nat → Tag → Prop} (apart : TellApart lists)
    (listed : ∀ id n tag, s.post.directory.Lists id n tag → lists id n tag)
    (offers : ∀ x ∈ due rounds unlisted r, ∀ n tag, Directory.Offers suite x n tag → lists x.id n tag) :
    (conclude rounds suite unlisted r).toExcept s = (conclude rounds' suite unlisted r').toExcept s := by
  have same := alongside_due rounds rounds' unlisted alike
  have ends := ends_conclude suite rounds r unlisted willing
  have ends' := ends_conclude suite rounds' r' unlisted willing
  refine ends.trans (Eq.trans ?_ ends'.symm)
  rw [alike.summary_eq, alike.held]
  simp only [taking, same.listAllIn_eq apart offers listed, same.perm.length_eq]

end Station

end SealedStream
