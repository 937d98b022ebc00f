import SealedStream.Suite

/-!
# The chain of a handshake

The secret of a handshake starts a chain: period 0 is derived from it, and every later period from
the one before. However a secret of the chain is reached, by one walk or by several, it is the same.

## Main definitions

* `Suite.chain` — the secret of every period.

## Main statements

* `Suite.walk_walk` — walks on from where another walk ended compose with it.
* `Suite.walks_compose` — so do all walks, and each takes every period on its way once, in order.
* `Suite.walk_chain` — a walk along the chain ends at the chain's secret.
-/

namespace SealedStream.Suite

/-! ## Walks -/

theorem steps_add {α : Type} (next : Nat → α → α) (m n period : Nat) (secret : α) :
    steps next (m + n) period secret = steps next n (period + m) (steps next m period secret) := by
  induction m generalizing period secret with
  | zero => simp [steps]
  | succ m ih =>
    rw [Nat.succ_add, steps, ih, steps]
    congr 1
    omega

/-- Steps go through consecutive periods, the first one first. -/
theorem steps_eq_foldl {α : Type} (next : Nat → α → α) (count period : Nat) (secret : α) :
    steps next count period secret =
      (List.range' period count).foldl (fun secret period => next period secret) secret := by
  induction count generalizing period secret with
  | zero => rfl
  | succ count ih => rw [steps, ih, List.range'_succ, List.foldl_cons]

/-- Below the greatest count, a walk takes one step into each period after its source. -/
theorem walk_eq_steps (suite : Suite) {source : Nat} (lt_top : source < Count.top) (target : Nat)
    (secret : Key) :
    suite.walk source target secret = steps suite.next (target - source) (source + 1) secret := by
  rw [walk, Count.plus_eq_add lt_top, Nat.add_sub_add_right]

/-- A walk that stops on the way and goes on ends where it would have ended. -/
theorem walk_walk (suite : Suite) {source mid target : Nat} (le : source ≤ mid) (le' : mid ≤ target)
    (lt_top : mid < Count.top) (secret : Key) :
    suite.walk mid target (suite.walk source mid secret) = suite.walk source target secret := by
  have earlier : source < Count.top := Nat.lt_of_le_of_lt le lt_top
  rw [walk_eq_steps suite lt_top, walk_eq_steps suite earlier, walk_eq_steps suite earlier,
    show mid + 1 = source + 1 + (mid - source) by omega, ← steps_add]
  congr 1
  omega

/-- A walk may stop anywhere below the greatest count and go on from there, and a walk to a later
period derives the secret of each period on its way from the one before. -/
theorem walks_compose (suite : Suite) (secret : Key) :
    (∀ source mid target, source ≤ mid → mid ≤ target → mid < Count.top →
      suite.walk mid target (suite.walk source mid secret) = suite.walk source target secret) ∧
    ∀ source target, source < target → target ≤ Count.top →
      suite.walk source target secret =
        (List.range' (source + 1) (target - source)).foldl
          (fun secret period => suite.next period secret) secret := by
  constructor
  · intro source mid target le le' lt_top
    exact suite.walk_walk le le' lt_top secret
  · intro source target lt le_top
    rw [suite.walk_eq_steps (Nat.lt_of_lt_of_le lt le_top), steps_eq_foldl]

/-- A walk that stops just before the greatest count still derives the last secret once only. -/
theorem walks_compose_to_top :
    let key := Key.wiped
    Count.top - 3 ≤ Count.top - 1 ∧ Count.top - 1 ≤ Count.top ∧ Count.top - 1 < Count.top ∧
      standard.walk (Count.top - 1) Count.top
          (standard.walk (Count.top - 3) (Count.top - 1) key) =
        standard.next Count.top
          (standard.next (Count.top - 1) (standard.next (Count.top - 2) key)) := by
  intro key
  obtain ⟨compose, stepwise⟩ := walks_compose standard key
  refine ⟨by decide, by decide, by decide, ?_⟩
  rw [compose (Count.top - 3) (Count.top - 1) Count.top (by decide) (by decide) (by decide),
    stepwise (Count.top - 3) Count.top (by decide) (by decide),
    show List.range' (Count.top - 3 + 1) (Count.top - (Count.top - 3)) =
      [Count.top - 2, Count.top - 1, Count.top] by decide]
  rfl

/-! ## The chain -/

/-- The secret of a period of the chain that a handshake starts. -/
def chain (suite : Suite) (handshake : Key) : Nat → Key
  | 0 => suite.next 0 handshake
  | period + 1 => suite.next (period + 1) (suite.chain handshake period)

variable (suite : Suite) (handshake : Key)

theorem steps_chain (count period : Nat) :
    steps suite.next count (period + 1) (suite.chain handshake period) =
      suite.chain handshake (period + count) := by
  induction count generalizing period with
  | zero => rfl
  | succ count ih =>
    have next := ih (period + 1)
    rw [show period + 1 + count = period + (count + 1) by omega] at next
    exact next

theorem walk_chain {source target : Nat} (le : source ≤ target) (lt_top : source < Count.top) :
    suite.walk source target (suite.chain handshake source) = suite.chain handshake target := by
  rw [walk, Count.plus_eq_add lt_top, steps_chain]
  congr 1
  omega

end SealedStream.Suite
