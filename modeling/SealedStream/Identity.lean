import Std.Data.ExtTreeMap

/-!
# Contacts, transports and the secrets between them

A contact is a number and a transport a name. A pair of them has at most one link; a link's secrets
are told apart by their period. All of these are ordered field by field, names by their bytes.

## Main definitions

* `Side` — which end of a handshake a peer is.
* `Pair`, `Link`, `PeriodId` — who talks over what, since when and from which side, and in which
  period.
* `PeriodId.text` — the written form of a secret's identity.
-/

namespace SealedStream

open Std

/-- The local number of a contact. -/
abbrev Contact := Nat

/-- The name of a transport. -/
abbrev Transport := String

/-- The end of a handshake that a peer is: alice began it, bob answered. -/
inductive Side where
  | alice
  | bob
deriving DecidableEq, Repr, Inhabited

/-- The other end. -/
def Side.other : Side → Side
  | alice => bob
  | bob => alice

@[simp] theorem Side.other_other (s : Side) : s.other.other = s := by cases s <;> rfl

/-- A contact on a transport. -/
structure Pair where
  contact : Contact
  transport : Transport
deriving DecidableEq, Repr, Inhabited

/-- A secure channel with a pair: the time its schedule counts from, in milliseconds, and the side
of the local peer. -/
structure Link extends Pair where
  epoch : Nat
  side : Side
deriving DecidableEq, Repr, Inhabited

/-- Names one secret: a pair and a position in its chain. -/
structure PeriodId extends Pair where
  period : Nat
deriving DecidableEq, Repr, Inhabited

/-- The written form, such as `7/tcp#3`. -/
def PeriodId.text (id : PeriodId) : String :=
  toString id.contact ++ "/" ++ id.transport ++ "#" ++ toString id.period

/-- Pairs are ordered by contact, then by transport. -/
instance : Ord Pair := ⟨compareLex (compareOn Pair.contact) (compareOn Pair.transport)⟩

/-- Identities are ordered by pair, then by period. -/
instance : Ord PeriodId := ⟨compareLex (compareOn PeriodId.toPair) (compareOn PeriodId.period)⟩

instance : TransOrd Pair :=
  inferInstanceAs (TransCmp (compareLex (compareOn Pair.contact) (compareOn Pair.transport)))

instance : LawfulEqOrd Pair where
  eq_of_compare {a b} h := by
    obtain ⟨h₁, h₂⟩ := compareLex_eq_eq.1 h
    cases a; cases b
    have h₁ := LawfulEqOrd.eq_of_compare h₁
    have h₂ := LawfulEqOrd.eq_of_compare h₂
    simp_all

instance : TransOrd PeriodId :=
  inferInstanceAs (TransCmp (compareLex (compareOn PeriodId.toPair) (compareOn PeriodId.period)))

instance : LawfulEqOrd PeriodId where
  eq_of_compare {a b} h := by
    obtain ⟨h₁, h₂⟩ := compareLex_eq_eq.1 h
    cases a; cases b
    have h₁ := LawfulEqOrd.eq_of_compare h₁
    have h₂ := LawfulEqOrd.eq_of_compare h₂
    simp_all

end SealedStream
