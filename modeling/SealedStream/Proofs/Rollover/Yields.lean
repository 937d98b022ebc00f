import SealedStream.Proofs.Rollover.Sources

/-!
# What secrets yield

From the earliest secret of a pair on, the given secrets yield one for every period: the given one, or
one derived from the latest before it. A rollover holds what they yield around the current period. The
secrets in between need not be kept: what a rollover holds yields the same from there on.

## Main definitions

* `Rollover.Yields` — the secret is the given one of its period, or else derived.
* `Rollover.Cuts` — some secrets that stand for others up to a period.

## Main statements

* `Rollover.Cuts.yields_iff` — they yield the same.
* `Rollover.Uniform.get_held_iff` — a rollover holds what its secrets yield.
-/

namespace SealedStream.Rollover

open Std

variable {suite : Suite} {now : Nat} {latencies : ExtTreeMap Transport Nat} {tolerance : Nat}
  {secrets : List PeriodSecret}

/-! ## What secrets yield -/

/-- The secret is the given one of its period or else, if there is none, the one that is derived from
the latest secret before it. -/
inductive Yields (suite : Suite) (secrets : List PeriodSecret) (x : PeriodSecret) : Prop where
  | given (mem : x ∈ secrets)
  | derived (missing : ∀ s ∈ secrets, s.id ≠ x.id) (source : PeriodSecret)
      (before : LatestBefore secrets x.pair x.period source)
      (fresh : x = .fresh source.link x.period (suite.walk source.period x.period source.key))

namespace Yields

theorem exists_le {x : PeriodSecret} (yields : Yields suite secrets x) :
    ∃ s ∈ secrets, s.pair = x.pair ∧ s.link = x.link ∧ s.period ≤ x.period := by
  cases yields with
  | given mem => exact ⟨x, mem, rfl, rfl, le_rfl⟩
  | derived _ source before fresh =>
    exact ⟨source, before.mem, before.pair_eq, by rw [fresh]; rfl, before.lt.le⟩

/-- There is one secret at most for a period of a pair. -/
theorem unique (uniform : Uniform secrets) {x y : PeriodSecret} (hx : Yields suite secrets x)
    (hy : Yields suite secrets y) (same : x.id = y.id) : x = y := by
  cases hx with
  | given mem =>
    cases hy with
    | given mem' => exact uniform.distinct x mem y mem' same
    | derived missing => exact absurd same (missing x mem)
  | derived missing source before fresh =>
    cases hy with
    | given mem' => exact absurd same.symm (missing y mem')
    | derived _ source' before' fresh' =>
      obtain ⟨pair, period⟩ := PeriodId.mk.inj same
      replace pair : x.pair = y.pair := pair
      rw [pair, period] at before
      obtain rfl := before.unique uniform before'
      rw [fresh, fresh', period]

/-- From the earliest secret of a pair on, every period has one. -/
theorem exists_of_le (suite : Suite) (uniform : Uniform secrets) {s : PeriodSecret} {period : Nat}
    (mem : s ∈ secrets) (le : s.period ≤ period) :
    ∃ x, Yields suite secrets x ∧ x.link = s.link ∧ x.period = period := by
  by_cases given : ∃ x ∈ secrets, x.id = ⟨s.pair, period⟩
  · obtain ⟨x, mem', named⟩ := given
    obtain ⟨own, rfl⟩ := PeriodId.mk.inj named
    exact ⟨x, .given mem', uniform.link x mem' s mem own, rfl⟩
  · have missing : ∀ x ∈ secrets, x.id ≠ ⟨s.pair, period⟩ := fun x mem' named =>
      given ⟨x, mem', named⟩
    have lt : s.period < period := Nat.lt_of_le_of_ne le fun same => missing s mem (same ▸ rfl)
    obtain ⟨source, before⟩ := exists_latestBefore ⟨s, mem, rfl, lt⟩
    have link := uniform.link source before.mem s mem before.pair_eq
    refine ⟨.fresh source.link period (suite.walk source.period period source.key), ?_, link, rfl⟩
    have own : (PeriodSecret.fresh source.link period
        (suite.walk source.period period source.key)).pair = s.pair := before.pair_eq
    refine .derived (fun x mem' same => missing x mem' ?_) source (own.symm ▸ before) rfl
    exact PeriodSecret.id_eq_mk_iff.2 ⟨(PeriodSecret.id_eq_iff.1 same).1.trans own,
      (PeriodSecret.id_eq_iff.1 same).2⟩

end Yields

/-- Up to a period, the secrets `cut` stand for the others: they are among what the others yield, and
after each of the others comes one of them. -/
structure Cuts (suite : Suite) (secrets cut : List PeriodSecret) (pair : Pair) (period : Nat) :
    Prop where
  yields : ∀ x ∈ cut, Yields suite secrets x
  between : ∀ s ∈ secrets, s.pair = pair → s.period ≤ period →
    ∃ x ∈ cut, x.pair = pair ∧ s.period ≤ x.period ∧ x.period ≤ period

namespace Cuts

variable {cut : List PeriodSecret} {x : PeriodSecret}

theorem uniform (uniform : Uniform secrets) (yields : ∀ x ∈ cut, Yields suite secrets x) :
    Uniform cut where
  distinct s mem t mem' same := (yields s mem).unique uniform (yields t mem') same
  link s mem t mem' same := by
    obtain ⟨a, known, pair, link, -⟩ := (yields s mem).exists_le
    obtain ⟨b, known', pair', link', -⟩ := (yields t mem').exists_le
    rw [← link, ← link', uniform.link a known b known' (by rw [pair, pair', same])]

variable (uniform : Uniform secrets) (cuts : Cuts suite secrets cut x.pair x.period)
  (le_top : x.period ≤ Count.top)
include uniform cuts le_top

theorem yields_cut (yields : Yields suite secrets x) : Yields suite cut x := by
  by_cases given : ∃ y ∈ cut, y.id = x.id
  · obtain ⟨y, mem, same⟩ := given
    exact .given ((cuts.yields y mem).unique uniform yields same ▸ mem)
  have missing : ∀ y ∈ cut, y.id ≠ x.id := fun y mem same => given ⟨y, mem, same⟩
  have ne_period {y : PeriodSecret} (mem : y ∈ cut) (own : y.pair = x.pair) : y.period ≠ x.period :=
    fun same => missing y mem (PeriodSecret.id_eq_iff.2 ⟨own, same⟩)
  cases yields with
  | given mem =>
    obtain ⟨y, mem', own, ge, le⟩ := cuts.between x mem rfl le_rfl
    exact absurd (Nat.le_antisymm le ge) (ne_period mem' own)
  | derived absent source before fresh =>
    obtain ⟨y, mem, own, ge, le⟩ := cuts.between source before.mem before.pair_eq before.lt.le
    obtain ⟨latest, after⟩ := exists_latestBefore
      ⟨y, mem, own, Nat.lt_of_le_of_ne le (ne_period mem own)⟩
    have ge : source.period ≤ latest.period :=
      ge.trans (after.le y mem own (Nat.lt_of_le_of_ne le (ne_period mem own)))
    refine .derived missing latest after (fresh.trans ?_)
    -- The latest one of the cut is the source of `x`, or it was derived from it.
    cases cuts.yields latest after.mem with
    | given known =>
      have same := Nat.le_antisymm (before.le latest known after.pair_eq after.lt) ge
      rw [uniform.distinct latest known source before.mem
        (PeriodSecret.id_eq_iff.2 ⟨after.pair_eq.trans before.pair_eq.symm, same⟩)]
    | derived absent' source' before' fresh' =>
      have lt : source.period < latest.period := by
        refine Nat.lt_of_le_of_ne ge fun same => absent' source before.mem ?_
        exact PeriodSecret.id_eq_iff.2 ⟨before.pair_eq.trans after.pair_eq.symm, same⟩
      have same : LatestBefore secrets latest.pair latest.period source :=
        ⟨before.mem, before.pair_eq.trans after.pair_eq.symm, lt, fun z mem own below =>
          before.le z mem (own.trans after.pair_eq) (below.trans after.lt)⟩
      obtain rfl := before'.unique uniform same
      have key : latest.key = suite.walk source'.period latest.period source'.key := by
        rw [fresh']; rfl
      rw [key, suite.walk_walk lt.le after.lt.le (after.lt.trans_le le_top),
        show latest.link = source'.link by rw [fresh']; rfl]

/-- What the secrets yield at the period can be told from the cut alone. -/
theorem yields_iff : Yields suite cut x ↔ Yields suite secrets x := by
  refine ⟨fun yields => ?_, cuts.yields_cut uniform le_top⟩
  obtain ⟨y, mem, own, link, le⟩ := yields.exists_le
  obtain ⟨s, mem', own', link', le'⟩ := (cuts.yields y mem).exists_le
  obtain ⟨z, yields', link_z, period⟩ := Yields.exists_of_le suite uniform mem' (le'.trans le)
  have pair : z.pair = x.pair := congrArg Link.toPair (link_z.trans (link'.trans link))
  have named : z.id = x.id := PeriodSecret.id_eq_iff.2 ⟨pair, period⟩
  have again : Yields suite cut z := by
    rw [← pair, ← period] at cuts
    exact cuts.yields_cut uniform (period ▸ le_top) yields'
  exact again.unique (Cuts.uniform uniform cuts.yields) yields named ▸ yields'

end Cuts

/-! ## The rollover -/

theorem Due.yields {x : PeriodSecret} (due : Due suite now latencies tolerance secrets x) :
    Yields suite secrets x := by
  obtain ⟨source, before, fresh⟩ := due.derived
  exact .derived due.missing source before fresh

/-- What is yielded for a place is given or due. -/
theorem Yields.mem_or_due {x : PeriodSecret} {current : Nat} {turn : Turn}
    (yields : Yields suite secrets x)
    (at_now : current? now latencies tolerance x.link = some current) (room : current < Count.top)
    (place : (x.period : Int) = current + turn.offset) :
    x ∈ secrets ∨ Due suite now latencies tolerance secrets x := by
  cases yields with
  | given mem => exact .inl mem
  | derived missing source before fresh =>
    exact .inr ⟨missing, ⟨current, turn, at_now, (Turn.period_eq_some_iff room).2 place⟩, source,
      before, fresh⟩

theorem mem_or_due_iff {x : PeriodSecret} {current : Nat} {turn : Turn}
    (at_now : current? now latencies tolerance x.link = some current) (room : current < Count.top)
    (live : stage? now latencies tolerance x = some (.live turn)) :
    (x ∈ secrets ∨ Due suite now latencies tolerance secrets x) ↔ Yields suite secrets x :=
  ⟨fun there => there.elim .given Due.yields,
    fun yields => yields.mem_or_due at_now room ((stage?_eq_live_iff at_now).1 live)⟩

namespace Uniform

variable (uniform : Uniform secrets) (bounded : Bounded now latencies tolerance secrets) {r : Rollover}
  (plans : plan suite now latencies tolerance secrets = .ok r)
include uniform bounded plans

/-- In every place around the current period stands what the secrets yield. -/
theorem get_held_iff {s x : PeriodSecret} {current : Nat} {turn : Turn} (mem : s ∈ secrets)
    (at_now : current? now latencies tolerance s.link = some current) :
    (r.held[s.pair]?).bind (·.get turn) = some x ↔
      x.pair = s.pair ∧ Yields suite secrets x ∧ (x.period : Int) = current + turn.offset := by
  have link (own : x.pair = s.pair) (yields : Yields suite secrets x) : x.link = s.link := by
    obtain ⟨t, mem', own', same, -⟩ := yields.exists_le
    rw [← same, uniform.link t mem' s mem (own'.trans own)]
  rw [uniform.get_held plans, uniform.mem_created plans bounded]
  refine and_congr_right fun own => ⟨?_, ?_⟩
  · rintro ⟨there, live⟩
    have yields : Yields suite secrets x := there.elim .given Due.yields
    rw [← link own yields] at at_now
    exact ⟨yields, (stage?_eq_live_iff at_now).1 live⟩
  · rintro ⟨yields, place⟩
    have room := bounded s mem current at_now
    rw [← link own yields] at at_now
    exact ⟨yields.mem_or_due at_now room place, (stage?_eq_live_iff at_now).2 place⟩

end Uniform

end SealedStream.Rollover
