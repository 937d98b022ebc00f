import SealedStream.Identity

/-!
# The notice bus

Listeners sign up at a bus under numbers. A notice goes to all of them in the order in which they
signed up; who signs up or leaves while it is delivered changes nothing for that notice.
-/

namespace SealedStream

/-- What a peer is told about its surroundings. -/
inductive Notice where
  | contactGone (contact : Contact)
  /-- A transport can be used; its latency is given in milliseconds. -/
  | transportUp (transport : Transport) (latency : Nat)
  | transportGone (transport : Transport)
deriving DecidableEq, Repr, Inhabited

/-- The listeners by number, in the order in which they signed up. -/
structure Bus (ρ : Type) where
  nextId : Nat
  listeners : List (Nat × ρ)
deriving Repr

namespace Bus

variable {ρ σ : Type}

/-- Nobody listens. -/
def empty : Bus ρ := ⟨0, []⟩

instance : Inhabited (Bus ρ) := ⟨empty⟩

/-- Signs a listener up. Its number is `b.nextId`. -/
def add (listener : ρ) (b : Bus ρ) : Bus ρ :=
  ⟨b.nextId + 1, b.listeners ++ [(b.nextId, listener)]⟩

/-- Signs a listener off. -/
def remove (id : Nat) (b : Bus ρ) : Bus ρ :=
  { b with listeners := b.listeners.filter (·.1 ≠ id) }

/-- Lets each of the present listeners hear a notice. -/
def deliver (hear : ρ → σ → σ) (b : Bus ρ) (s : σ) : σ :=
  b.listeners.foldl (fun s entry => hear entry.2 s) s

end Bus

end SealedStream
