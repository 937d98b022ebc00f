import SealedStream.Rotation.Schedule
import SealedStream.Secret

/-!
# The live secrets of a pair

At most one secret stands in each of the three places.
-/

namespace SealedStream

/-- The secrets of a pair by their place. -/
structure Trio where
  old : Option PeriodSecret
  current : Option PeriodSecret
  new : Option PeriodSecret
deriving DecidableEq, Repr

namespace Trio

/-- No secrets. -/
def empty : Trio := ⟨none, none, none⟩

instance : Inhabited Trio := ⟨empty⟩

/-- The secret in a place. -/
def get (t : Trio) : Turn → Option PeriodSecret
  | .old => t.old
  | .current => t.current
  | .new => t.new

/-- Puts a secret in a place, instead of the one that may stand there. -/
def set (t : Trio) (turn : Turn) (s : PeriodSecret) : Trio :=
  match turn with
  | .old => { t with old := some s }
  | .current => { t with current := some s }
  | .new => { t with new := some s }

/-- The places without a secret, oldest first. -/
def missing (t : Trio) : List Turn := Turn.all.filter fun turn => (t.get turn).isNone

/-- The secrets, oldest place first. -/
def secrets (t : Trio) : List PeriodSecret := Turn.all.filterMap t.get

/-- The period in each place, oldest place first. -/
def periods (t : Trio) : List (Option Nat) := Turn.all.map fun turn => (t.get turn).map (·.period)

/-- Every place is taken. -/
def Full (t : Trio) : Prop := t.missing = []

/-- No place is taken. -/
def Vacant (t : Trio) : Prop := t.secrets = []

instance (t : Trio) : Decidable t.Full := inferInstanceAs (Decidable (_ = _))

instance (t : Trio) : Decidable t.Vacant := inferInstanceAs (Decidable (_ = _))

@[simp] theorem get_set_self (t : Trio) (turn : Turn) (s : PeriodSecret) :
    (t.set turn s).get turn = some s := by cases turn <;> rfl

theorem get_set_of_ne (t : Trio) {turn other : Turn} (s : PeriodSecret) (h : other ≠ turn) :
    (t.set turn s).get other = t.get other := by cases turn <;> cases other <;> trivial

@[ext] theorem ext_get {t u : Trio} (h : ∀ turn, t.get turn = u.get turn) : t = u := by
  cases t; cases u; congr
  · exact h .old
  · exact h .current
  · exact h .new

end Trio

end SealedStream
