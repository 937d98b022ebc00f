import SealedStream.Focus

/-!
# Gates

A gate stands before calls that may fail for reasons of their own, such as a full disk. It numbers
the calls and may turn away any of them; a call that is turned away has no effect. Every pattern of
failing calls is given by a verdict that depends on the number of the call.
-/

namespace SealedStream

/-- Decides call by call which calls fail, and with what fault. -/
structure Gate (κ ε : Type) where
  /-- The number of calls so far. -/
  calls : Nat
  /-- The fault of a call, if it is turned away, by its number and what is called. -/
  verdict : Nat → κ → Option ε

namespace Gate

variable {κ ε : Type}

/-- A gate that lets every call pass. -/
def clear : Gate κ ε := ⟨0, fun _ _ => none⟩

instance : Inhabited (Gate κ ε) := ⟨clear⟩

/-- Counts a call and turns it away if the verdict says so. -/
def pass (call : κ) : Action ε (Gate κ ε) Unit := fun g =>
  let counted := { g with calls := g.calls + 1 }
  match g.verdict g.calls call with
  | none => .ok () counted
  | some fault => .error fault counted

end Gate

end SealedStream
