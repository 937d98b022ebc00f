/-!
# Actions on a part of a state

An action that reads and changes a state, and may stop with a fault, keeps the changes it made
before it stopped. `focus` lets such an action on one part of a larger state act on the whole.
-/

namespace SealedStream

/-- An action on a state of type `σ` that gives an `α` or stops with an `ε`. In both cases the
state reached is kept. -/
abbrev Action (ε σ α : Type) := EStateM ε σ α

namespace Action

/-- Acts on the part of the state that `get` reads and `set` replaces, naming faults by `name`. -/
def focus {ε ε' σ τ α : Type} (get : σ → τ) (set : τ → σ → σ) (name : ε → ε')
    (act : Action ε τ α) : Action ε' σ α := fun s =>
  match act (get s) with
  | .ok a t => .ok a (set t s)
  | .error e t => .error (name e) (set t s)

/-- The answer of an action, and the state it leaves. -/
def toExcept {ε σ α : Type} (act : Action ε σ α) (s : σ) : Except ε α × σ :=
  match act s with
  | .ok a t => (.ok a, t)
  | .error e t => (.error e, t)

/-- An action that reads the state and gives a value or a fault. -/
def ofExcept {ε σ α : Type} : Except ε α → Action ε σ α
  | .ok a => pure a
  | .error e => throw e

end Action

end SealedStream
