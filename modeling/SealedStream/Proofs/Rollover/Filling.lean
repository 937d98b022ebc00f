import SealedStream.Proofs.Rollover.Places
import SealedStream.Proofs.Schedule

/-!
# Filling the empty places

Of a pair's genuine secrets it does not matter which is the latest below a period: the walk along
the chain ends at the same key. So an empty place is filled with the chain's secret of its period
exactly if some earlier secret is known.

## Main statements

* `Rollover.mem_deriveMissing` — the secrets derived for empty places.
* `Rollover.get_fill` — what stands in a place after filling.
-/

namespace SealedStream.Rollover

theorem latestBelow_append_singleton (period : Nat) (secrets : List PeriodSecret)
    (s : PeriodSecret) :
    latestBelow period (secrets ++ [s]) =
      if s.period < period then
        match latestBelow period secrets with
        | some b => if b.period ≤ s.period then some s else some b
        | none => some s
      else latestBelow period secrets := by
  simp only [latestBelow, List.foldl_append, List.foldl_cons, List.foldl_nil]
  generalize List.foldl _ none secrets = best
  cases best <;> rfl

theorem mem_of_latestBelow {period : Nat} {secrets : List PeriodSecret} {s : PeriodSecret}
    (h : latestBelow period secrets = some s) : s ∈ secrets ∧ s.period < period := by
  induction secrets using List.reverseRecOn generalizing s with
  | nil => cases h
  | append_singleton secrets x ih =>
    rw [latestBelow_append_singleton] at h
    grind

theorem latestBelow_eq_none_iff {period : Nat} {secrets : List PeriodSecret} :
    latestBelow period secrets = none ↔ ∀ s ∈ secrets, period ≤ s.period := by
  induction secrets using List.reverseRecOn with
  | nil => simp [latestBelow]
  | append_singleton secrets x ih =>
    rw [latestBelow_append_singleton]
    grind

variable {suite : Suite} {origin : Pair → Origin} {pair : Pair}

/-- Secrets of one pair that are genuine. -/
def AllOf (suite : Suite) (origin : Pair → Origin) (pair : Pair) (secrets : List PeriodSecret) :
    Prop :=
  ∀ s ∈ secrets, s.Genuine suite origin ∧ s.pair = pair

theorem derive?_eq {period : Nat} {sources : List PeriodSecret}
    (genuine : AllOf suite origin pair sources) (le_top : period ≤ Count.top) :
    derive? suite ((origin pair).link pair) period sources =
      if ∃ s ∈ sources, s.period < period then some (.ofChain suite origin pair period)
      else none := by
  unfold derive?
  cases found : latestBelow period sources with
  | none =>
    have late := latestBelow_eq_none_iff.1 found
    rw [Option.map_none, if_neg]
    rintro ⟨s, mem, lt⟩
    exact absurd (late s mem) (Nat.not_le.2 lt)
  | some source =>
    obtain ⟨mem, lt⟩ := mem_of_latestBelow found
    obtain ⟨real, rfl⟩ := genuine source mem
    rw [Option.map_some, if_pos ⟨source, mem, lt⟩, real.key,
      Suite.walk_chain _ _ lt.le (lt.trans_le le_top)]
    rfl

/-- The last place gets a secret that is derived from the sources and from the secrets before it. -/
theorem deriveMissing_append_singleton {link : Link} {current : Nat} {sources : List PeriodSecret}
    {turns : List Turn} {turn : Turn} :
    deriveMissing suite link current sources (turns ++ [turn]) =
      deriveMissing suite link current sources turns ++
        ((turn.period current).bind fun period => derive? suite link period
          (sources ++ deriveMissing suite link current sources turns)).toList := by
  simp only [deriveMissing, List.foldl_append, List.foldl_cons, List.foldl_nil]
  split <;> simp [*]

/-- The secrets derived for some places. That a derived secret may be the source of the next one
changes nothing. -/
theorem mem_deriveMissing {current : Nat} {sources : List PeriodSecret} {turns : List Turn}
    (genuine : AllOf suite origin pair sources) (le_top : current ≤ Count.top) {x : PeriodSecret} :
    x ∈ deriveMissing suite ((origin pair).link pair) current sources turns ↔
      ∃ turn ∈ turns, ∃ period, turn.period current = some period ∧
        (∃ s ∈ sources, s.period < period) ∧ x = .ofChain suite origin pair period := by
  induction turns using List.reverseRecOn generalizing x with
  | nil => simp [deriveMissing]
  | append_singleton turns turn ih =>
    rw [deriveMissing_append_singleton]
    generalize deriveMissing suite ((origin pair).link pair) current sources turns = created at ih ⊢
    cases target : turn.period current with
    | none => simp [ih, or_and_right, exists_or, target]
    | some period =>
      have known : AllOf suite origin pair (sources ++ created) := by
        intro s mem
        rcases List.mem_append.1 mem with mem | mem
        · exact genuine s mem
        · obtain ⟨-, -, q, -, -, rfl⟩ := ih.1 mem
          exact ⟨PeriodSecret.genuine_ofChain .., rfl⟩
      have earlier : (∃ s ∈ sources ++ created, s.period < period) ↔
          ∃ s ∈ sources, s.period < period := by
        constructor
        · rintro ⟨s, mem, lt⟩
          rcases List.mem_append.1 mem with mem | mem
          · exact ⟨s, mem, lt⟩
          · obtain ⟨-, -, q, -, ⟨source, known, below⟩, rfl⟩ := ih.1 mem
            exact ⟨source, known, below.trans lt⟩
        · rintro ⟨s, mem, lt⟩
          exact ⟨s, List.mem_append_left _ mem, lt⟩
      rw [Option.bind_some, derive?_eq known (Turn.le_top_of_period le_top target)]
      by_cases some_earlier : ∃ s ∈ sources, s.period < period
      · rw [if_pos (earlier.2 some_earlier)]
        simp only [Option.toList_some, List.mem_append, List.mem_singleton, ih, or_and_right,
          exists_or, exists_eq_left, target, Option.some.injEq, exists_eq_left', some_earlier,
          true_and]
      · rw [if_neg (mt earlier.1 some_earlier)]
        simp only [Option.toList_none, List.append_nil, List.mem_append, List.mem_singleton, ih,
          or_and_right, exists_or, exists_eq_left, target, Option.some.injEq, exists_eq_left',
          some_earlier, false_and, or_false]

section Derived

variable {link : Link} {current : Nat} {sources : List PeriodSecret} {turns : List Turn}
  {x : PeriodSecret}

/-- Whatever the keys, a derived secret is a fresh one of the link it was derived for, and it has the
period of a place. -/
theorem of_mem_deriveMissing (mem : x ∈ deriveMissing suite link current sources turns) :
    x = .fresh link x.period x.key ∧ ∃ turn ∈ turns, turn.period current = some x.period := by
  induction turns using List.reverseRecOn generalizing x with
  | nil => simp [deriveMissing] at mem
  | append_singleton turns turn ih =>
    rw [deriveMissing_append_singleton, List.mem_append, Option.mem_toList] at mem
    rcases mem with mem | derived
    · obtain ⟨fresh, turn', within, target⟩ := ih mem
      exact ⟨fresh, turn', List.mem_append_left _ within, target⟩
    · obtain ⟨period, target, derived⟩ := Option.bind_eq_some_iff.1 derived
      obtain ⟨source, -, rfl⟩ := Option.map_eq_some_iff.1 derived
      exact ⟨rfl, turn, by simp, target⟩

/-- One secret is derived for a period. -/
theorem eq_of_mem_deriveMissing (apart : turns.Nodup)
    (mem : x ∈ deriveMissing suite link current sources turns) {y : PeriodSecret}
    (mem' : y ∈ deriveMissing suite link current sources turns) (same : x.period = y.period) :
    x = y := by
  induction turns using List.reverseRecOn with
  | nil => simp [deriveMissing] at mem
  | append_singleton turns turn ih =>
    obtain ⟨within, -, new⟩ := List.nodup_append.1 apart
    -- Two secrets of one period were derived for one place.
    have elsewhere {z : PeriodSecret} (mem : z ∈ deriveMissing suite link current sources turns)
        {period : Nat} (target : turn.period current = some period) : z.period ≠ period := by
      rintro rfl
      obtain ⟨-, turn', earlier, target'⟩ := of_mem_deriveMissing mem
      have place := (Turn.eq_add_offset_of_period target).symm.trans
        (Turn.eq_add_offset_of_period target')
      exact new turn' earlier turn (by simp) (Turn.offset_injective (by omega))
    rw [deriveMissing_append_singleton, List.mem_append, Option.mem_toList] at mem mem'
    rcases mem with mem | derived <;> rcases mem' with mem' | derived'
    · exact ih within mem mem'
    · obtain ⟨period, target, derived'⟩ := Option.bind_eq_some_iff.1 derived'
      obtain ⟨source, -, rfl⟩ := Option.map_eq_some_iff.1 derived'
      exact absurd same (elsewhere mem target)
    · obtain ⟨period, target, derived⟩ := Option.bind_eq_some_iff.1 derived
      obtain ⟨source, -, rfl⟩ := Option.map_eq_some_iff.1 derived
      exact absurd same.symm (elsewhere mem' target)
    · exact Option.some.inj (derived.symm.trans derived')

end Derived

/-! ## One pair -/

section Fill

variable {now interval : Nat} {t : Trio} {dead : List PeriodSecret}

/-- Whatever the secrets are, what is derived for their places has the link of one of them, and it is
put where that link has it stand. -/
theorem fill_cases : fill suite now interval dead t = (t, []) ∨
    ∃ first ∈ t.secrets ++ dead, ∃ current,
      Schedule.periodAt first.link.epoch interval now = some current ∧
      let created := deriveMissing suite first.link current (t.secrets ++ dead) t.missing
      fill suite now interval dead t = (place now interval first.link created t, created) := by
  unfold fill
  cases found : (t.secrets ++ dead).head? with
  | none => exact .inl rfl
  | some first =>
    dsimp only
    cases at_now : Schedule.periodAt first.link.epoch interval now with
    | none => exact .inl rfl
    | some current => exact .inr ⟨first, List.mem_of_mem_head? found, current, at_now, rfl⟩

/-- Filling in terms of the link of the pair, which all its secrets have. -/
theorem fill_eq (links : ∀ s ∈ t.secrets ++ dead, s.link = (origin pair).link pair)
    (any : t.secrets ++ dead ≠ []) :
    fill suite now interval dead t =
      match Schedule.periodAt (origin pair).epoch interval now with
      | none => (t, [])
      | some current =>
        let created := deriveMissing suite ((origin pair).link pair) current (t.secrets ++ dead)
          t.missing
        (place now interval ((origin pair).link pair) created t, created) := by
  unfold fill
  cases first : (t.secrets ++ dead).head? with
  | none => exact absurd (List.head?_eq_none_iff.1 first) any
  | some s =>
    simp only [links s (List.mem_of_mem_head? first)]
    rfl

theorem AllOf.link {secrets : List PeriodSecret} (genuine : AllOf suite origin pair secrets) :
    ∀ s ∈ secrets, s.link = (origin pair).link pair := by
  intro s mem
  obtain ⟨real, rfl⟩ := genuine s mem
  exact real.link

variable (genuine : AllOf suite origin pair (t.secrets ++ dead)) (any : t.secrets ++ dead ≠ [])
  (le_top : ∀ current, Schedule.periodAt (origin pair).epoch interval now = some current →
    current ≤ Count.top)
include genuine any le_top

theorem mem_fill_snd {x : PeriodSecret} :
    x ∈ (fill suite now interval dead t).2 ↔
      ∃ current, Schedule.periodAt (origin pair).epoch interval now = some current ∧
        ∃ turn, t.get turn = none ∧ ∃ period, turn.period current = some period ∧
          (∃ s ∈ t.secrets ++ dead, s.period < period) ∧ x = .ofChain suite origin pair period := by
  rw [fill_eq genuine.link any]
  cases h : Schedule.periodAt (origin pair).epoch interval now with
  | none => simp
  | some current =>
    simp only [mem_deriveMissing genuine (le_top current h), Trio.mem_missing, Option.some.injEq,
      exists_eq_left']

/-- What stood in a place stays there, and a derived secret stands in the place of its period. -/
theorem get_fill (pos : 0 < interval) {turn : Turn} {x : PeriodSecret} :
    (fill suite now interval dead t).1.get turn = some x ↔
      t.get turn = some x ∨ x ∈ (fill suite now interval dead t).2 ∧
        (x.period : Int) = Schedule.cycle (origin pair).epoch interval now + turn.offset := by
  have derived := mem_fill_snd genuine any le_top (x := x)
  have shape : fill suite now interval dead t = _ := fill_eq genuine.link any
  cases h : Schedule.periodAt (origin pair).epoch interval now with
  | none => simp [shape, h]
  | some current =>
    obtain ⟨-, cycle⟩ := (Schedule.periodAt_eq_some_iff pos).1 h
    have created := congrArg Prod.snd shape
    simp only [h] at created
    rw [shape]
    simp only [h, ← created, place_eq_setAll]
    have stands (s : PeriodSecret) (turn : Turn) :
        ((Schedule.lifespan ((origin pair).link pair).epoch interval s.period).stageAt now).turn? =
          some turn ↔
        (s.period : Int) = Schedule.cycle (origin pair).epoch interval now + turn.offset :=
      Schedule.Stage.turn?_eq_some_iff.trans (Schedule.stageAt_eq_live_iff pos)
    by_cases filled : ∃ y ∈ (fill suite now interval dead t).2,
        (y.period : Int) = Schedule.cycle (origin pair).epoch interval now + turn.offset
    · obtain ⟨y, mem, place⟩ := filled
      -- A derived secret is fixed by its period, so in its place no other one comes after it.
      have only : ∀ x ∈ (fill suite now interval dead t).2,
          (x.period : Int) = Schedule.cycle (origin pair).epoch interval now + turn.offset →
            x = y := by
        intro x mem' place'
        obtain ⟨-, -, -, -, p, -, -, rfl⟩ := (mem_fill_snd genuine any le_top).1 mem'
        obtain ⟨-, -, -, -, q, -, -, rfl⟩ := (mem_fill_snd genuine any le_top).1 mem
        have : p = q := by simp only [PeriodSecret.period_ofChain] at place place'; omega
        rw [this]
      obtain ⟨_, same, other, empty, period, target, -, rfl⟩ :=
        (mem_fill_snd genuine any le_top).1 mem
      have own : other = turn := by
        have := Turn.eq_add_offset_of_period target
        rw [h, Option.some.injEq] at same
        subst same
        exact Turn.offset_injective (by simp only [PeriodSecret.period_ofChain] at place; omega)
      subst own
      rw [Trio.get_setAll_of_mem mem ((stands _ _).2 place) fun x mem h =>
        only x mem ((stands _ _).1 h), empty, Option.some.injEq]
      constructor
      · rintro rfl
        exact .inr ⟨mem, place⟩
      · rintro (h | ⟨mem, place⟩)
        · cases h
        · exact (only x mem place).symm
    · rw [Trio.get_setAll_of_forall fun x mem h => filled ⟨x, mem, (stands _ _).1 h⟩]
      constructor
      · exact .inl
      · rintro (h | ⟨mem, place⟩)
        · exact h
        · exact absurd ⟨x, mem, place⟩ filled

end Fill

end SealedStream.Rollover
