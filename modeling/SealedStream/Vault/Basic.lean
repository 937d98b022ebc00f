import SealedStream.Fault
import SealedStream.Focus
import SealedStream.Secret

/-!
# The vault

The vault keeps the period secrets and the latencies of the transports over restarts. A row is
named by its secret's identity. Writing can be switched off, and every change is then refused.

## Main definitions

* `Vault.add`, `Vault.remove`, `Vault.removeContact`, `Vault.removeTransport` — which rows there are.
* `Vault.reserve` — the next stream number of a secret, handed out once.
* `Vault.setWindow` — the streams received under a secret.
-/

namespace SealedStream

open Std

/-- The stored secrets and latencies. -/
structure Vault where
  rows : ExtTreeMap PeriodId PeriodSecret
  latencies : ExtTreeMap Transport Nat
  writable : Bool

namespace Vault

/-- A vault that holds nothing. -/
def empty : Vault := ⟨∅, ∅, true⟩

instance : Inhabited Vault := ⟨empty⟩

/-- Records the greatest latency of a transport, in milliseconds. -/
def setLatency (transport : Transport) (latency : Nat) (v : Vault) : Vault :=
  { v with latencies := v.latencies.insert transport latency }

/-- The rows with one more secret. A row with the same identity and key keeps its link and window,
and the greater stream counter of the two; any other row is replaced. -/
def put (rows : ExtTreeMap PeriodId PeriodSecret) (s : PeriodSecret) :
    ExtTreeMap PeriodId PeriodSecret :=
  match rows[s.id]? with
  | some held =>
    if held.key = s.key then
      rows.insert s.id { held with outgoing := max held.outgoing s.outgoing }
    else rows.insert s.id s
  | none => rows.insert s.id s

/-! ## Calls -/

/-- A call on the vault, which either answers or fails. -/
abbrev Call (α : Type) := Action StoreFault Vault α

/-- Refuses the call while writing is switched off. -/
def demandWritable : Call Unit := do
  if !(← get).writable then throw (.backend "writes disabled")

/-- All secrets, ordered by identity. -/
def secrets : Call (List PeriodSecret) := do return (← get).rows.values

/-- All latencies. -/
def transports : Call (ExtTreeMap Transport Nat) := do return (← get).latencies

/-- Adds secrets one after the other. -/
def add (secrets : List PeriodSecret) : Call Unit := do
  demandWritable
  modify fun v => { v with rows := secrets.foldl put v.rows }

/-- Removes the rows of the given identities. -/
def remove (ids : List PeriodId) : Call Unit := do
  demandWritable
  modify fun v => { v with rows := ids.foldl (·.erase ·) v.rows }

/-- Removes the rows of a contact. -/
def removeContact (contact : Contact) : Call Unit := do
  demandWritable
  modify fun v => { v with rows := v.rows.filter fun id _ => id.contact ≠ contact }

/-- Removes the rows of a transport and its latency. -/
def removeTransport (transport : Transport) : Call Unit := do
  demandWritable
  modify fun v =>
    { v with
      rows := v.rows.filter fun id _ => id.transport ≠ transport
      latencies := v.latencies.erase transport }

/-- Reserves the next stream number of a secret; `none` if the secret is not stored. -/
def reserve (id : PeriodId) : Call (Option Nat) := do
  demandWritable
  match (← get).rows[id]? with
  | none => return none
  | some held =>
    modify fun v => { v with rows := v.rows.insert id { held with outgoing := held.outgoing + 1 } }
    return some held.outgoing

/-- Replaces the window of a secret, if the secret is stored. -/
def setWindow (id : PeriodId) (window : SeenWindow) : Call Unit := do
  demandWritable
  match (← get).rows[id]? with
  | none => return
  | some held => modify fun v => { v with rows := v.rows.insert id { held with incoming := window } }

end Vault

end SealedStream
