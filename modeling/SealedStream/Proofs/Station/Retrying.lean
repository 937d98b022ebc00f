import SealedStream.Proofs.Station.Faults
import SealedStream.Proofs.Station.Orders

/-!
# Rotating again after a fault

A rotation that a fault of the vault stops has made some of its changes. Made once more they change
nothing, so a rotation at the same time, with the fault gone, ends as if there had been none before.

All this is said of any orders in which the two rotations go through the pairs. If tags are told apart,
one order leaves what another would.

## Main definitions

* `Gate.Open` — no further call is turned away.
* `Station.mended` — the station with a vault that works.
* `Station.settledBy` — the station of a rotation whose rollover is stored.
* `Station.Tagged` — the streams whose tags a rotation deals with.

## Main statements

* `Station.foldl_writes_take` — the changes of a rollover made once more.
* `Station.Working.ends_rotateBy_iff` — a rotation with a vault that works.
* `Station.Working.toExcept_rotateBy_eq` — such a rotation, in whatever orders.
* `Station.rotate_repairs` — a rotation makes up for one that failed.
-/

namespace SealedStream

open Std SealedStream.Action

/-! ## A vault that works -/

/-- The gate lets every further call pass. -/
def Gate.Open {κ ε : Type} (g : Gate κ ε) : Prop := ∀ n, g.calls ≤ n → ∀ call, g.verdict n call = none

/-- The gate after some more calls. -/
def Gate.after {κ ε : Type} (n : Nat) (g : Gate κ ε) : Gate κ ε := { g with calls := g.calls + n }

theorem Gate.Open.after {κ ε : Type} {g : Gate κ ε} (isOpen : g.Open) (n : Nat) : (g.after n).Open :=
  fun m le => isOpen m (Nat.le_of_add_right_le le)

theorem Gate.Open.ends_pass {κ ε : Type} {g : Gate κ ε} (isOpen : g.Open) (call : κ) :
    (Gate.pass call).Ends g (.ok ()) (g.after 1) := by
  simp only [Ends, toExcept, Gate.pass, isOpen g.calls le_rfl call]
  rfl

namespace Station

/-- The station with a vault that can be written to, behind another gate. -/
def mended (gate : Gate VaultCall StoreFault) (s : Station) : Station :=
  { s with post.vault := ⟨{ s.post.vault.vault with writable := true }, gate⟩ }

/-- From now on, no call on the vault fails. -/
structure Working (s : Station) : Prop where
  writable : s.post.vault.vault.writable = true
  isOpen : s.post.vault.gate.Open

variable {suite : Suite} {s t : Station} {gate : Gate VaultCall StoreFault} {rounds : Rounds}
  {r r' : Rollover}

theorem working_mended (isOpen : gate.Open) : (s.mended gate).Working := ⟨rfl, isOpen⟩

/-- The station after some calls on the vault that do not fail. -/
def afterCalls (calls : List Call) (s : Station) : Station :=
  { s with
    post.vault :=
      ⟨{ s.post.vault.vault with rows := calls.foldl Call.apply s.post.vault.vault.rows },
        s.post.vault.gate.after calls.length⟩ }

theorem afterCalls_append (calls calls' : List Call) :
    s.afterCalls (calls ++ calls') = (s.afterCalls calls).afterCalls calls' := by
  simp [afterCalls, Gate.after, Nat.add_assoc]

theorem Working.afterCalls (working : s.Working) (calls : List Call) : (s.afterCalls calls).Working :=
  ⟨working.writable, working.isOpen.after calls.length⟩

theorem Working.ends_change (working : s.Working) (kind : VaultCall) {f : Vault → Vault} (call : Call)
    (applies : ∀ v, f v = { v with rows := call.apply v.rows }) :
    (onVault kind (do Vault.demandWritable; modify f)).Ends s (.ok ()) (s.afterCalls [call]) := by
  have passes := working.isOpen.ends_pass kind
  refine ends_focus_ok_iff.2 ⟨⟨f s.post.vault.vault, s.post.vault.gate.after 1⟩, ?_, ?_⟩
  · refine ends_bind_ok_iff.2 ⟨(), _, ends_focus_ok_iff.2 ⟨_, passes, rfl⟩, ?_⟩
    refine ends_focus_ok_iff.2 ⟨_, ?_, rfl⟩
    rw [Vault.ends_demandWritable_bind_iff, if_pos working.writable]
    exact ends_modify_iff.2 ⟨rfl, rfl⟩
  · rw [applies]
    rfl

/-- Storing a rollover makes all of its calls. -/
theorem Working.ends_persist (working : s.Working) :
    (persist r).Ends s (.ok ()) (s.afterCalls (writes r.created r.retired)) := by
  have adds := working.ends_change .add (.add r.created) fun _ => rfl
  have removes {s : Station} (working : s.Working) :=
    working.ends_change .remove (.remove r.retired) fun _ => rfl
  unfold persist writes
  split <;> split
  · rw [afterCalls_append]
    exact ends_bind_ok_iff.2 ⟨(), _, adds, removes (working.afterCalls _)⟩
  · exact removes working
  · exact ends_bind_ok_iff.2 ⟨(), _, adds, ends_pure_iff.2 ⟨rfl, rfl⟩⟩
  · exact ends_pure_iff.2 ⟨rfl, rfl⟩

/-! ## The same once more -/

theorem foldl_writes (rows : ExtTreeMap PeriodId PeriodSecret) :
    (writes r.created r.retired).foldl Call.apply rows = persisted r rows := by
  unfold writes persisted stored
  split <;> split <;> simp_all [Call.apply]

section Again

variable {passage : Passage} {now : Nat} {latencies : ExtTreeMap Transport Nat} {tolerance : Nat}
  {secrets : List PeriodSecret}
  (plans : Rollover.planBy passage suite now latencies tolerance secrets = .ok r)
include plans

/-- Storing derived secrets twice is storing them once. -/
theorem stored_stored (rows : ExtTreeMap PeriodId PeriodSecret) :
    stored r (stored r rows) = stored r rows := by
  obtain ⟨r', plans', alike⟩ := Rollover.planBy_alike .sorted (.refl _) plans
  have agree : ∀ x ∈ r.created, ∀ y ∈ r.created, x.id = y.id → x.key = y.key := by
    intro x mem y mem' same
    rw [Rollover.eq_of_mem_created plans' (alike.created.mem_iff.1 mem) (alike.created.mem_iff.1 mem')
      same]
  refine (Vault.putAll_eq_self_iff ?_ agree).2 fun x mem => Vault.key_putAll agree mem
  intro x mem
  obtain ⟨link, period, key, rfl⟩ :=
    Rollover.fresh_of_mem_created plans' (alike.created.mem_iff.1 mem)
  rfl

/-- Wherever the calls of a rollover were interrupted, making all of them leads to the same rows. -/
theorem foldl_writes_take {k : Nat} (lt : k < (writes r.created r.retired).length)
    (rows : ExtTreeMap PeriodId PeriodSecret) :
    (writes r.created r.retired).foldl Call.apply
        (((writes r.created r.retired).take k).foldl Call.apply rows) =
      (writes r.created r.retired).foldl Call.apply rows := by
  rw [foldl_writes, foldl_writes]
  match k with
  | 0 => rfl
  | 1 =>
    -- Only if there are two calls, the first of them was made: it stored what is derived.
    have first : (writes r.created r.retired).take 1 = [.add r.created] := by
      unfold writes at lt ⊢
      split at lt <;> split at lt <;> simp_all
    rw [first]
    exact congrArg (r.retired.foldl (·.erase ·)) (stored_stored plans rows)
  | k + 2 =>
    unfold writes at lt
    split at lt <;> split at lt <;> simp at lt

end Again

theorem unlistAllIn_unlistAllIn (ids : List PeriodId) (d : Directory) :
    unlistAllIn ids (unlistAllIn ids d) = unlistAllIn ids d :=
  Directory.removeAll_eq_self_iff.2 fun _ mem there => (Directory.mem_listings_removeAll.1 there).2 mem

theorem lists_of_lists_unlistAllIn {ids : List PeriodId} {d : Directory} {id : PeriodId} {n : Nat}
    {tag : Tag} (there : (unlistAllIn ids d).Lists id n tag) : d.Lists id n tag := by
  obtain ⟨l, there, listed⟩ := there
  rw [unlistAllIn, Directory.getElem?_listings_removeAll] at there
  exact ⟨l, (Option.ite_none_left_eq_some.1 there).2, listed⟩

/-! ## A rotation with a working vault -/

/-- The station of a rotation whose rollover is stored. -/
def settledBy (r : Rollover) (s : Station) : Station :=
  { s.afterCalls (writes r.created r.retired) with
    post.directory := unlistAllIn r.summary.retired s.post.directory }

/-- Rollovers that are alike leave the same when they are stored. -/
theorem settledBy_eq (alike : r.Alike r') : s.settledBy r = s.settledBy r' := by
  have length : (writes r.created r.retired).length = (writes r'.created r'.retired).length := by
    simp only [writes, Ne, alike.created.eq_nil_iff, ← List.isEmpty_iff, alike.retired.isEmpty_eq]
    split <;> split <;> rfl
  simp only [settledBy, afterCalls, foldl_writes, alike.persisted_eq, alike.summary_eq, length]

/-- A rotation with a working vault takes the retired secrets off the directory, makes all of its
calls and concludes. -/
theorem Working.ends_rotateBy_iff (working : s.Working)
    (plans : rotatePlanBy rounds suite s = .ok r) {answer : Except KeyringFault Rollover.Summary} :
    (rotateBy rounds suite).Ends s answer t ↔
      (conclude rounds suite s.keyring.unlisted r).Ends (s.settledBy r) answer t := by
  have persists := Working.ends_persist (r := r) (s := { s with
    post.directory := unlistAllIn r.summary.retired s.post.directory }) ⟨working.writable, working.isOpen⟩
  rw [Station.ends_rotateBy_iff]
  constructor
  · rintro (⟨_, fails, -⟩ | ⟨r', plans', rest⟩)
    · cases plans.symm.trans fails
    cases plans.symm.trans plans'
    rcases ends_bind_iff.1 rest with ⟨_, fails, -⟩ | ⟨_, u, stores, rest⟩
    · cases (persists.unique fails).1
    · obtain ⟨-, rfl⟩ := persists.unique stores
      exact rest
  · intro concludes
    exact .inr ⟨r, plans, ends_bind_iff.2 (.inr ⟨_, _, persists, concludes⟩)⟩

/-- A rotation with a working vault answers with the summary of its rollover. -/
theorem Working.rotateBy_succeeds (working : s.Working) (plans : rotatePlanBy rounds suite s = .ok r) :
    ((rotateBy rounds suite).toExcept s).1 = .ok r.summary :=
  conclude_cases ((working.ends_rotateBy_iff plans).1 (ends_toExcept _ s))

/-- The secrets that a rotation may list. -/
def listable (suite : Suite) (s : Station) : List PeriodSecret :=
  (rotatePlan suite s).toOption.elim [] fun r => r.held.values.flatMap Trio.secrets ++ r.created

/-- The streams whose tags a rotation deals with: those that are listed, and those that it may list. -/
def Tagged (suite : Suite) (s : Station) (id : PeriodId) (n : Nat) (tag : Tag) : Prop :=
  s.post.directory.Lists id n tag ∨
    ∃ x ∈ s.listable suite, x.id = id ∧ Directory.Offers suite x n tag

/-- Streams that can be read off their tags are told apart. -/
theorem tellApart_tagged (read : Tag → PeriodId × Nat)
    (listed : ∀ l ∈ s.post.directory.listings.toList, ∀ x ∈ l.2.tags.toList, read x.2 = (l.1, x.1))
    (offered : ∀ x ∈ s.listable suite, ∀ y ∈ (Listing.ofSecret suite x).tags.toList,
      read y.2 = (x.id, y.1)) : TellApart (s.Tagged suite) := by
  refine .of_read read ?_
  rintro id n tag (⟨l, there, lists⟩ | ⟨x, mem, rfl, offers⟩)
  · exact listed (id, l) (ExtTreeMap.mem_toList_iff_getElem?_eq_some.2 there) (n, tag)
      (ExtTreeMap.mem_toList_iff_getElem?_eq_some.2 lists)
  · exact offered x mem (n, tag) (ExtTreeMap.mem_toList_iff_getElem?_eq_some.2 offers)

/-- If the directory refuses no secret and tags are told apart, a rotation with a working vault does the
same in whatever orders it goes through the pairs. -/
theorem Working.toExcept_rotateBy_eq (working : s.Working) (willing : s.core.Willing)
    (apart : TellApart (s.Tagged suite)) (plans : rotatePlan suite s = .ok r) (rounds rounds' : Rounds) :
    (rotateBy rounds suite).toExcept s = (rotateBy rounds' suite).toExcept s := by
  have planned (rounds : Rounds) : ∃ r', rotatePlanBy rounds suite s = .ok r' ∧ r.Alike r' :=
    Rollover.planBy_alike _ (rounds.held.alongside _).symm plans
  obtain ⟨r₁, plans₁, alike₁⟩ := planned rounds
  obtain ⟨r₂, plans₂, alike₂⟩ := planned rounds'
  have once := (working.ends_rotateBy_iff plans₁).1 (ends_toExcept _ s)
  have again := (working.ends_rotateBy_iff plans₂).1 (ends_toExcept _ s)
  have alike := alike₁.symm.trans alike₂
  rw [← settledBy_eq alike] at again
  have same : (conclude rounds suite s.keyring.unlisted r₁).toExcept (s.settledBy r₁) =
      (conclude rounds' suite s.keyring.unlisted r₂).toExcept (s.settledBy r₁) := by
    refine toExcept_conclude_eq willing alike apart ?_ ?_
    · intro id n tag there
      exact .inl (lists_of_lists_unlistAllIn there)
    · intro x mem n tag offers
      refine .inr ⟨x, ?_, rfl, offers⟩
      rw [listable, plans, Except.toOption, Option.elim_some]
      rw [due, ← alike₁.held, List.mem_append, List.mem_filter, (rounds.pending.alongside _).mem_iff,
        ← alike₁.created.mem_iff] at mem
      exact List.mem_append.2 (mem.imp_left And.left)
  exact (once.symm.trans same).trans again

/-- With one handshake for two pairs, a tag leads to the secret that the rotation lists last. -/
example :
    let post : Post := { Peer.postAt ⟨.setLatency "tcp" 20 .empty, .clear⟩ 0 with
      intake := ⟨0, fun call _ => if call < 6 then some .derivation else none⟩ }
    let s := (run bare [(1000, .enroll ⟨⟨1, "tcp"⟩, 0, .alice⟩ 20 .wiped),
      (1000, .enroll ⟨⟨2, "tcp"⟩, 0, .alice⟩ 20 .wiped)] ⟨.stopped .standard 0, post⟩).atTime 2000
    let led (first : Pair) := ((rotateBy ⟨.sorted, .sorted, .startingWith first⟩ bare).toExcept
      s).2.post.directory.lookup? (1 :: 2 :: Bytes.zeros 14)
    led ⟨1, "tcp"⟩ = some (⟨⟨2, "tcp"⟩, 1⟩, 0) ∧ led ⟨2, "tcp"⟩ = some (⟨⟨1, "tcp"⟩, 1⟩, 0) := by
  decide +kernel

/-! ## After a fault -/

theorem rotateBy_failed {fault : KeyringFault} (failed : (rotateBy rounds suite).Ends s (.error fault) t) :
    (rotatePlanBy rounds suite s = .error fault ∧ t = s) ∨ ∃ cause, fault = .store cause := by
  rcases ends_rotateBy_iff.1 failed with ⟨_, plans, same, rfl⟩ | ⟨r, -, rest⟩
  · cases same
    exact .inl ⟨plans, rfl⟩
  rcases ends_bind_iff.1 rest with ⟨_, storing, same⟩ | ⟨_, u, -, concludes⟩
  · cases same
    rcases persist_ends storing with ⟨-, -, ⟨cause, same⟩, -⟩ | ok
    · cases same
      exact .inr ⟨cause, rfl⟩
    · cases ok
  · cases conclude_cases concludes

/-- What a rotation that a fault stopped has already done, a further rotation leaves as it is. -/
theorem settledBy_of_interrupted {g : GuardedVault} {k : Nat} (plans : rotatePlanBy rounds suite s = .ok r)
    (reached : t = { s with
      post.vault := g
      post.directory := unlistAllIn r.summary.retired s.post.directory })
    (interrupted : Interrupted (writes r.created r.retired) k s.post.vault g) :
    (t.mended gate).settledBy r = (s.mended gate).settledBy r := by
  -- With all calls made, it does not matter which of them were made before.
  have rows := foldl_writes_take plans interrupted.lt s.post.vault.vault.rows
  simp only [reached, settledBy, afterCalls, mended, unlistAllIn_unlistAllIn, interrupted.vault, rows]

/-- A rotation that fails leaves the keyring as it is. If the vault works from then on, the next
rotation at the same time does what it would have done at first, whatever orders it goes through the pairs
in, and does not fail for the vault's sake. The orders themselves make no difference as long as the
directory refuses no secret and tags are told apart. -/
theorem rotate_repairs {fault : KeyringFault} (failed : (rotateBy rounds suite).Ends s (.error fault) t)
    (isOpen : gate.Open) :
    t.keyring = s.keyring ∧
      (∀ again : Rounds, (rotateBy again suite).toExcept (t.mended gate) =
        (rotateBy again suite).toExcept (s.mended gate)) ∧
      ∀ cause, fault = .store cause →
        (∃ summary, ∀ again : Rounds,
          ((rotateBy again suite).toExcept (t.mended gate)).1 = .ok summary) ∧
        (s.core.Willing → TellApart (s.Tagged suite) → ∀ again once : Rounds,
          (rotateBy again suite).toExcept (t.mended gate) =
            (rotateBy once suite).toExcept (s.mended gate)) := by
  rcases rotateBy_failed failed with ⟨plans, rfl⟩ | ⟨cause, rfl⟩
  · refine ⟨rfl, fun _ => rfl, ?_⟩
    rintro cause rfl
    obtain ⟨_, -, _, -, -, eq⟩ := Rollover.of_planBy_eq_error plans
    cases eq
  obtain ⟨r, plans, g, reached, k, interrupted⟩ := rotateBy_interrupted failed
  have kept : t.keyring = s.keyring := by rw [reached]
  have working := working_mended (s := s) isOpen
  have planned (again : Rounds) : ∃ r', rotatePlanBy again suite s = .ok r' ∧ r.Alike r' :=
    Rollover.planBy_alike _ ((rounds.held.alongside _).trans (again.held.alongside _).symm) plans
  have same (again : Rounds) :
      (rotateBy again suite).toExcept (t.mended gate) =
        (rotateBy again suite).toExcept (s.mended gate) := by
    obtain ⟨r', plans', alike⟩ := planned again
    have plans_later : rotatePlanBy again suite (t.mended gate) = .ok r' := by
      rw [reached]
      exact plans'
    have once := (working.ends_rotateBy_iff plans').1 (ends_toExcept _ _)
    rw [← settledBy_eq alike, ← settledBy_of_interrupted plans reached interrupted,
      settledBy_eq alike] at once
    refine ((working_mended isOpen).ends_rotateBy_iff plans_later).2 ?_
    rwa [show (t.mended gate).keyring = (s.mended gate).keyring from kept]
  refine ⟨kept, same, fun _ _ => ⟨⟨r.summary, fun again => ?_⟩, fun willing apart again once => ?_⟩⟩
  · obtain ⟨r', plans', alike⟩ := planned again
    rw [same, working.rotateBy_succeeds plans', alike.summary_eq]
  · obtain ⟨r', plans', -⟩ := planned .sorted
    rw [same, working.toExcept_rotateBy_eq willing apart plans' again once]

/-- A rotation stores the secrets of a new period, but cannot remove those of an old one. With the vault
mended, the next one ends as if it were the first. -/
theorem rotate_repairs_unremoved :
    let refusal (call : Nat) (_ : VaultCall) := if call = 7 then some (.backend "full") else none
    let s := (run bare [(0, .start), (1000, .enroll ⟨⟨1, "tcp"⟩, 0, .alice⟩ 20 .wiped),
        (1000, .enroll ⟨⟨2, "tcp"⟩, 0, .bob⟩ 20 .wiped)]
      ⟨.stopped .standard 0,
        Peer.postAt ⟨.setLatency "tcp" 20 .empty, ⟨0, refusal⟩⟩ 0⟩).atTime 15000000
    let second : Passage := .startingWith ⟨2, "tcp"⟩
    let t := ((rotateBy ⟨second, second, second⟩ bare).toExcept s).2
    (rotateBy ⟨second, second, second⟩ bare).Ends s (.error (.store (.backend "full"))) t ∧
      t.keyring = s.keyring ∧ t.post.vault.vault.rows ≠ s.post.vault.vault.rows ∧
      (∃ summary, ∀ again : Rounds,
        ((rotateBy again bare).toExcept (t.mended .clear)).1 = .ok summary) ∧
      ∀ again once : Rounds, (rotateBy again bare).toExcept (t.mended .clear) =
        (rotateBy once bare).toExcept (s.mended .clear) := by
  intro refusal s second t
  have fails : ((rotateBy ⟨second, second, second⟩ bare).toExcept s).1 =
      .error (.store (.backend "full")) := by
    decide +kernel
  have derived : ⟨⟨1, "tcp"⟩, 5⟩ ∈ t.post.vault.vault.rows ∧
      ⟨⟨1, "tcp"⟩, 5⟩ ∉ s.post.vault.vault.rows := by
    decide +kernel
  have apart : TellApart (s.Tagged bare) :=
    tellApart_tagged (fun tag => (⟨⟨if tag[1] = 2 then 1 else 2, "tcp"⟩, tag[0].toNat⟩, tag[2].toNat))
      (by decide +kernel) (by decide +kernel)
  have failed : (rotateBy ⟨second, second, second⟩ bare).Ends s (.error (.store (.backend "full"))) t := by
    rw [← fails]
    exact ends_toExcept (rotateBy ⟨second, second, second⟩ bare) s
  have willing : s.core.Willing := willing_run (fun _ _ => rfl) _
  have isOpen : (Gate.clear : Gate VaultCall StoreFault).Open := fun _ _ _ => rfl
  -- Nothing more is read off the run.
  clear_value t s
  obtain ⟨kept, -, repairs⟩ := rotate_repairs failed isOpen
  obtain ⟨succeeds, same⟩ := repairs _ rfl
  exact ⟨failed, kept, fun same => derived.2 (same ▸ derived.1), succeeds, same willing apart⟩

end Station

end SealedStream
