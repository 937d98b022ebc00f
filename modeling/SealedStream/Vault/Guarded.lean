import SealedStream.Gate
import SealedStream.Vault.Basic

/-!
# The guarded vault

A vault reached through a gate: any call on it may fail before it does anything.
-/

namespace SealedStream

/-- The kinds of calls on a vault. -/
inductive VaultCall where
  | secrets
  | transports
  | add
  | remove
  | removeContact
  | removeTransport
  | reserve
  | setWindow
deriving DecidableEq, Repr, Inhabited

/-- A vault and the gate before it. -/
structure GuardedVault where
  vault : Vault
  gate : Gate VaultCall StoreFault

namespace GuardedVault

/-- An empty vault that never fails. -/
def empty : GuardedVault := ⟨.empty, .clear⟩

instance : Inhabited GuardedVault := ⟨empty⟩

/-- Makes a call of the given kind, if the gate lets it pass. -/
def call {α : Type} (kind : VaultCall) (act : Vault.Call α) :
    Action StoreFault GuardedVault α := do
  Action.focus gate (fun g s => { s with gate := g }) id (Gate.pass kind)
  Action.focus vault (fun v s => { s with vault := v }) id act

end GuardedVault

end SealedStream
