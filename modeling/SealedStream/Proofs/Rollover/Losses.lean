import SealedStream.Proofs.Rollover.Supply

/-!
# What a rollover loses

Stored secrets are told apart by pair and period, so those of one pair may count from different
epochs. Two of them can then come to one place. The later one of the list stands there, and the other
one is in no part of the rollover: it is neither held nor retired. Nothing else is ever lost.

## Main definitions

* `Rollover.Holds`, `Rollover.Accounts`, `Rollover.Loses` — what a rollover says of a secret.
* `Rollover.Displaced` — a later secret of the pair has the same place.

## Main statements

* `Rollover.loses_iff_displaced` — which secrets a rollover loses.
-/

namespace SealedStream.Rollover

open Std

/-! ## What a rollover says of a secret -/

/-- The secret stands in a place of its pair. -/
def Holds (r : Rollover) (s : PeriodSecret) : Prop := s ∈ (r.held[s.pair]?).elim [] Trio.secrets

instance (r : Rollover) (s : PeriodSecret) : Decidable (r.Holds s) :=
  inferInstanceAs (Decidable (s ∈ _))

/-- The secret is dead, or orphaned, or held, and just one of these. -/
def Accounts (r : Rollover) (s : PeriodSecret) : Prop :=
  s ∈ r.dead ∧ s ∉ r.orphaned ∧ ¬ r.Holds s ∨ s ∉ r.dead ∧ s ∈ r.orphaned ∧ ¬ r.Holds s ∨
    s ∉ r.dead ∧ s ∉ r.orphaned ∧ r.Holds s

/-- The secret is nothing of this. -/
def Loses (r : Rollover) (s : PeriodSecret) : Prop :=
  s ∉ r.dead ∧ s ∉ r.orphaned ∧ ¬ r.Holds s

instance (r : Rollover) (s : PeriodSecret) : Decidable (r.Accounts s) :=
  inferInstanceAs (Decidable (_ ∨ _ ∨ _))

instance (r : Rollover) (s : PeriodSecret) : Decidable (r.Loses s) :=
  inferInstanceAs (Decidable (_ ∧ _ ∧ _))

/-- Among the secrets after it in the list is one of the same pair that is live in the same place. -/
def Displaced (now : Nat) (latencies : ExtTreeMap Transport Nat) (tolerance : Nat) (s : PeriodSecret)
    (rest : List PeriodSecret) : Prop :=
  ∃ turn, stage? now latencies tolerance s = some (.live turn) ∧
    ∃ t ∈ rest, t.pair = s.pair ∧ stage? now latencies tolerance t = some (.live turn)

variable {suite : Suite} {now : Nat} {latencies : ExtTreeMap Transport Nat} {tolerance : Nat}
  {secrets front rest : List PeriodSecret} {s t : PeriodSecret} {turn : Turn} {r : Rollover}

/-- Secrets with one epoch that are live in the same place are those of one period. -/
theorem period_eq_of_live (pair : t.pair = s.pair) (epoch : t.link.epoch = s.link.epoch)
    (live : stage? now latencies tolerance s = some (.live turn))
    (live' : stage? now latencies tolerance t = some (.live turn)) : t.period = s.period := by
  simp only [stage?, lifespan?, Option.map_map, Option.map_eq_some_iff] at live live'
  obtain ⟨latency, known, live⟩ := live
  obtain ⟨latency', known', live'⟩ := live'
  rw [show t.link.transport = s.link.transport from congrArg Pair.transport pair] at known'
  obtain rfl := Option.some.inj (known.symm.trans known')
  dsimp only [Function.comp_apply] at live live'
  have pos := Schedule.pos_of_live live
  rw [epoch] at live'
  rw [Schedule.stageAt_eq_live_iff pos] at live live'
  omega

/-! ## What stands in a place -/

/-- The last of the live secrets of a pair that belong in a place stands there. -/
theorem get_liveTrio (pair : Pair) (turn : Turn) :
    (liveTrio now latencies tolerance secrets pair).get turn = secrets.reverse.find? fun s =>
      s.pair = pair ∧ stage? now latencies tolerance s = some (.live turn) := by
  have stands : (Trio.empty.setAll (turnBy (stage? now latencies tolerance))
      (secrets.filter (·.pair = pair))).get turn = secrets.reverse.find? fun s =>
        s.pair = pair ∧ stage? now latencies tolerance s = some (.live turn) := by
    rw [Trio.get_setAll, Trio.get_empty, Option.or_none, ← List.filter_reverse, List.find?_filter]
    simp only [turnBy_eq_some_iff, Bool.decide_and, Bool.decide_eq_true]
  rw [← stands, liveTrio, getElem?_liveTrios]
  split
  · rfl
  · rename_i nobody
    refine congrArg (·.get turn) (Trio.setAll_of_forall fun s mem => ?_).symm
    obtain ⟨mem, own⟩ := List.mem_filter.1 mem
    exact Option.not_isSome_iff_eq_none.1 fun live => nobody ⟨s, mem, by simpa using own, live⟩

theorem exists_get_liveTrio (mem : s ∈ secrets)
    (live : stage? now latencies tolerance s = some (.live turn)) :
    ∃ x, (liveTrio now latencies tolerance secrets s.pair).get turn = some x := by
  rw [← Option.isSome_iff_exists, get_liveTrio, List.find?_isSome]
  exact ⟨s, List.mem_reverse.2 mem, by simp [live]⟩

/-- Of a list of secrets told apart by their identities, one stands in its place just if none comes
after it there. -/
theorem get_liveTrio_eq_self_iff (distinct : ((front ++ s :: rest).map (·.id)).Nodup)
    (live : stage? now latencies tolerance s = some (.live turn)) :
    (liveTrio now latencies tolerance (front ++ s :: rest) s.pair).get turn = some s ↔
      ¬ Displaced now latencies tolerance s rest := by
  let p (t : PeriodSecret) : Bool :=
    t.pair = s.pair ∧ stage? now latencies tolerance t = some (.live turn)
  have own : p s := by simp [p, live]
  have displaced_iff : Displaced now latencies tolerance s rest ↔ ∃ t ∈ rest, p t := by
    simp [Displaced, p, live]
  have last : (front ++ s :: rest).reverse.find? p = (rest.reverse.find? p).or (some s) := by
    rw [List.reverse_append, List.reverse_cons, List.append_assoc, List.find?_append,
      List.singleton_append, List.find?_cons_of_pos own]
  rw [get_liveTrio, show (front ++ s :: rest).reverse.find? _ = _ from last, displaced_iff]
  cases found : rest.reverse.find? p with
  | none =>
    refine iff_of_true rfl ?_
    rintro ⟨t, mem, fits⟩
    exact List.find?_eq_none.1 found t (List.mem_reverse.2 mem) fits
  | some t =>
    have mem := List.mem_reverse.1 (List.mem_of_find?_eq_some found)
    refine iff_of_false ?_ (not_not.2 ⟨t, mem, List.find?_some found⟩)
    rintro ⟨⟩
    rw [List.map_append, List.nodup_append, List.map_cons, List.nodup_cons] at distinct
    exact distinct.2.1.1 (List.mem_map_of_mem mem)

/-! ## What a rollover loses -/

theorem holds_iff : r.Holds s ↔ ∃ turn, (r.held[s.pair]?).bind (·.get turn) = some s := by
  unfold Holds
  cases r.held[s.pair]? with
  | none => simp
  | some trio => simp [Trio.mem_secrets]

section Planned

variable (plans : plan suite now latencies tolerance secrets = .ok r)
include plans

theorem live_of_holds (holds : r.Holds s) :
    ∃ turn, stage? now latencies tolerance s = some (.live turn) := by
  obtain ⟨timely, rfl⟩ := plan_eq_ok plans
  obtain ⟨turn, stands⟩ := holds_iff.1 holds
  obtain ⟨latency, known, -, stands⟩ := (get_held_iff timely).1 stands
  exact ⟨turn, stage?_of_get_filling known stands⟩

/-- A live secret is held just if it stands in its place before anything is derived. -/
theorem holds_iff_of_live (mem : s ∈ secrets)
    (live : stage? now latencies tolerance s = some (.live turn)) :
    r.Holds s ↔ (liveTrio now latencies tolerance secrets s.pair).get turn = some s := by
  obtain ⟨timely, rfl⟩ := plan_eq_ok plans
  rw [holds_iff]
  constructor
  · rintro ⟨turn', stands⟩
    obtain ⟨latency, known, -, stands⟩ := (get_held_iff timely).1 stands
    obtain rfl : turn = turn' := by
      have live' := stage?_of_get_filling known stands
      rw [live] at live'
      exact Schedule.Stage.live.inj (Option.some.inj live')
    obtain ⟨x, there⟩ := exists_get_liveTrio mem live
    rw [there, ← stands, get_filling_of_get_liveTrio there]
  · intro there
    obtain ⟨latency, known, -⟩ := Option.map_eq_some_iff.1 live
    obtain ⟨latency, known, -⟩ := Option.map_eq_some_iff.1 known
    exact ⟨turn, (get_held_iff timely).2
      ⟨latency, known, ⟨s, mem, rfl⟩, get_filling_of_get_liveTrio there⟩⟩

/-- Whether a secret of the list is dead or orphaned is told by its stage. None is still to be created. -/
theorem told_of_mem (mem : s ∈ secrets) :
    (s ∈ r.dead ↔ stage? now latencies tolerance s = some .dead) ∧
      (s ∈ r.orphaned ↔ stage? now latencies tolerance s = none) ∧
      stage? now latencies tolerance s ≠ some .notYetCreated := by
  obtain ⟨timely, rfl⟩ := plan_eq_ok plans
  exact ⟨by simp [deadOf, mem], by simp [mem], timely s mem⟩

/-- Of secrets told apart by their identities, a rollover loses just those that are displaced. All
others it tells in one way. A secret is displaced only by one that counts from another epoch. -/
theorem loses_iff_displaced (distinct : (secrets.map (·.id)).Nodup)
    (eq : secrets = front ++ s :: rest) :
    (r.Loses s ↔ Displaced now latencies tolerance s rest) ∧
      (r.Accounts s ↔ ¬ Displaced now latencies tolerance s rest) ∧
      (Displaced now latencies tolerance s rest →
        ∃ t ∈ rest, t.pair = s.pair ∧ t.link.epoch ≠ s.link.epoch) := by
  have mem : s ∈ secrets := by simp [eq]
  obtain ⟨dead_iff, orphaned_iff, timely⟩ := told_of_mem plans mem
  have idle (still : ∀ turn, stage? now latencies tolerance s ≠ some (.live turn)) :
      ¬ r.Holds s ∧ ¬ Displaced now latencies tolerance s rest :=
    ⟨fun holds => (live_of_holds plans holds).elim still, fun ⟨turn, live, _⟩ => still turn live⟩
  have apart : Displaced now latencies tolerance s rest →
      ∃ t ∈ rest, t.pair = s.pair ∧ t.link.epoch ≠ s.link.epoch := by
    rintro ⟨turn, live, t, mem, pair, live'⟩
    refine ⟨t, mem, pair, fun epoch => ?_⟩
    have period := period_eq_of_live pair epoch live live'
    rw [eq, List.map_append, List.nodup_append, List.map_cons, List.nodup_cons] at distinct
    exact distinct.2.1.1 (List.mem_map.2 ⟨t, mem, PeriodSecret.id_eq_iff.2 ⟨pair, period⟩⟩)
  unfold Loses Accounts
  rw [dead_iff, orphaned_iff]
  cases stage : stage? now latencies tolerance s with
  | none =>
    obtain ⟨unheld, undisplaced⟩ := idle (by simp [stage])
    simp [unheld, undisplaced]
  | some stage' =>
    cases stage' with
    | notYetCreated => exact absurd stage timely
    | dead =>
      obtain ⟨unheld, undisplaced⟩ := idle (by simp [stage])
      simp [unheld, undisplaced]
    | live turn =>
      have holds_iff := holds_iff_of_live plans mem stage
      subst eq
      rw [get_liveTrio_eq_self_iff distinct stage] at holds_iff
      simpa [holds_iff] using apart

end Planned

/-- At 15, the second period since 0 and the first one since 10 are both current, and a secret of the
same pair that is dead comes in between. -/
theorem loses_iff_displaced_by_epoch :
    let early : Link := ⟨⟨1, "tcp"⟩, 0, .alice⟩
    let late : Link := ⟨⟨1, "tcp"⟩, 10, .alice⟩
    let secrets : List PeriodSecret :=
      [.fresh early 2 .wiped, .fresh early 0 .wiped, .fresh late 1 .wiped]
    let latencies : ExtTreeMap Transport Nat := (∅ : ExtTreeMap Transport Nat).insert "tcp" 7
    (secrets.map (·.id)).Nodup ∧ ∃ r, plan bare 15 latencies 3 secrets = .ok r ∧
      secrets.map (fun s => (decide (r.Loses s), decide (r.Accounts s))) =
        [(true, false), (false, true), (false, true)] ∧
      ∀ front s rest, secrets = front ++ s :: rest →
        (r.Loses s ↔ Displaced 15 latencies 3 s rest) ∧
          (r.Accounts s ↔ ¬ Displaced 15 latencies 3 s rest) ∧
          (Displaced 15 latencies 3 s rest →
            ∃ t ∈ rest, t.pair = s.pair ∧ t.link.epoch ≠ s.link.epoch) := by
  intro early late secrets latencies
  have distinct : (secrets.map (·.id)).Nodup := by decide
  obtain ⟨r, plans⟩ : ∃ r, plan bare 15 latencies 3 secrets = .ok r := exists_plan (by decide +kernel)
  have told : (plan bare 15 latencies 3 secrets).toOption.map (fun r =>
      secrets.map fun s => (decide (r.Loses s), decide (r.Accounts s))) =
        some [(true, false), (false, true), (false, true)] := by decide +kernel
  rw [plans] at told
  exact ⟨distinct, r, plans, Option.some.inj told,
    fun front s rest eq => loses_iff_displaced plans distinct eq⟩

/-- Without the dead secret, too, one of the two is lost. -/
theorem not_accounts_of_epochs :
    let early : Link := ⟨⟨1, "tcp"⟩, 0, .alice⟩
    let late : Link := ⟨⟨1, "tcp"⟩, 10, .alice⟩
    let secrets : List PeriodSecret := [.fresh early 2 .wiped, .fresh late 1 .wiped]
    let latencies : ExtTreeMap Transport Nat := (∅ : ExtTreeMap Transport Nat).insert "tcp" 7
    (secrets.map (·.id)).Nodup ∧ ∃ r, plan bare 15 latencies 3 secrets = .ok r ∧
      ¬ ∀ s ∈ secrets, r.Accounts s := by
  intro early late secrets latencies
  obtain ⟨r, plans⟩ : ∃ r, plan bare 15 latencies 3 secrets = .ok r := exists_plan (by decide +kernel)
  have told : (plan bare 15 latencies 3 secrets).toOption.map (fun r =>
      decide (∀ s ∈ secrets, r.Accounts s)) = some false := by decide +kernel
  rw [plans] at told
  exact ⟨by decide, r, plans, of_decide_eq_false (Option.some.inj told)⟩

end SealedStream.Rollover
