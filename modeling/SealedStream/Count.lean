/-!
# Counts

Periods, stream numbers, frame numbers and times in milliseconds are natural numbers that fit in
64 bits. Three ways to stay below the bound are told apart: saturating, wrapping and refusing.

A plain sum or product has none of them in mind. What becomes of one that leaves its range is settled
when the program is built: either the program stops, or the low bits are kept.

## Main definitions

* `Count.top` — the greatest count.
* `Count.plus` — addition that stops at the top.
* `Count.wrap` — reduction modulo `2 ^ 64`.
* `Count.succ?`, `Count.pred?` — the neighbours of a count, where they exist.
* `Overflow.count`, `Overflow.signed` — a number that was reckoned in 64 bits, or in 128 with a sign.
-/

namespace SealedStream

namespace Count

/-- The greatest count, `2 ^ 64 - 1`. -/
def top : Nat := 18446744073709551615

/-- Addition that stops at `top`. -/
def plus (a b : Nat) : Nat := min (a + b) top

/-- The count that the low 64 bits of `n` hold. -/
def wrap (n : Nat) : Nat := n % 18446744073709551616

/-- The next count, unless `n` is the greatest. -/
def succ? (n : Nat) : Option Nat := if n < top then some (n + 1) else none

/-- The previous count, unless `n` is zero. -/
def pred? : Nat → Option Nat
  | 0 => none
  | n + 1 => some n

theorem plus_le_top (a b : Nat) : plus a b ≤ top := Nat.min_le_right _ _

theorem plus_eq_add {a b : Nat} (h : a + b ≤ top) : plus a b = a + b := Nat.min_eq_left h

theorem wrap_eq_self {n : Nat} (h : n ≤ top) : wrap n = n := by unfold wrap; unfold top at h; omega

/-- The greatest number of 128 bits with a sign, `2 ^ 127 - 1`. -/
def signedTop : Int := 170141183460469231731687303715884105727

end Count

/-- What becomes of a sum or product that leaves its range. -/
inductive Overflow where
  /-- The program stops. -/
  | stops
  /-- The low bits are kept. -/
  | wraps
deriving DecidableEq, Repr, Inhabited

namespace Overflow

/-- A number that was reckoned in 64 bits; `none` if the program stops at it. -/
def count (o : Overflow) (n : Nat) : Option Nat :=
  if n ≤ Count.top then some n
  else
    match o with
    | stops => none
    | wraps => some (Count.wrap n)

/-- A number that was reckoned in 128 bits with a sign; `none` if the program stops at it. -/
def signed (o : Overflow) (n : Int) : Option Int :=
  if -Count.signedTop - 1 ≤ n ∧ n ≤ Count.signedTop then some n
  else
    match o with
    | stops => none
    | wraps => some (n.bmod 340282366920938463463374607431768211456)

theorem count_eq_some {o : Overflow} {n : Nat} (le : n ≤ Count.top) : o.count n = some n := if_pos le

theorem count_stops_eq_none {n : Nat} (gt : Count.top < n) : stops.count n = none :=
  if_neg (Nat.not_le.2 gt)

theorem count_wraps (n : Nat) : wraps.count n = some (Count.wrap n) := by
  unfold count
  split
  · rw [Count.wrap_eq_self ‹_›]
  · rfl

theorem signed_eq_some {o : Overflow} {n : Int} (ge : -Count.signedTop - 1 ≤ n)
    (le : n ≤ Count.signedTop) : o.signed n = some n := if_pos ⟨ge, le⟩

theorem signed_wraps (n : Int) :
    wraps.signed n = some (n.bmod 340282366920938463463374607431768211456) := by
  unfold signed Count.signedTop
  split
  · rw [Int.bmod_def]
    congr
    omega
  · rfl

end Overflow

end SealedStream
