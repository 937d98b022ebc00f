import SealedStream.Keyring.Basic

/-!
# Rotating the held secrets

A rotation plans the rollover of the held secrets, takes the retired ones off the directory, stores
the changes, and lists the new secrets together with those that the directory refused before.

It goes through the pairs three times. No order of them is laid down for any of the three.

## Main definitions

* `Station.Rounds` — the orders in which a rotation goes through the pairs.
* `Station.rotateBy`, `Station.rotate` — a rotation by any such orders, and by the pairs' own.
-/

namespace SealedStream.Station

open Std

/-- The orders in which a rotation goes through the pairs. -/
structure Rounds where
  /-- When the held secrets are planned for. -/
  held : Passage
  /-- When secrets are derived. -/
  created : Passage
  /-- When refused secrets are listed again. -/
  pending : Passage
deriving Inhabited

/-- The pairs in their own order, each time. -/
def Rounds.sorted : Rounds := ⟨.sorted, .sorted, .sorted⟩

/-- The end of a rotation whose rollover is stored: the live secrets are held, and those among them that
the directory refused before are listed with the new ones. -/
def conclude (rounds : Rounds) (suite : Suite) (unlisted : ExtTreeSet PeriodId) (r : Rollover) :
    Operation Rollover.Summary := do
  let pending :=
    (rounds.pending.arrange (r.held.values.flatMap Trio.secrets)).filter fun s => s.id ∈ unlisted
  onKeyring fun k =>
    { k with held := r.held, unlisted := ExtTreeSet.ofList (pending.map (·.id)) }
  listSecrets suite (pending ++ r.created)
  return r.summary

/-- Carries out a rollover of the held secrets. On a fault the held secrets stay as they were. -/
def rotateBy (rounds : Rounds) (suite : Suite) : Operation Rollover.Summary := do
  let k := (← get).keyring
  let rollover ← Action.ofExcept
    (Rollover.planBy rounds.created suite (← now) k.latencies k.settings.tolerance
      (rounds.held.arrange k.secrets))
  onDirectory fun d => rollover.summary.retired.foldl (fun d id => d.remove id) d
  persist rollover
  conclude rounds suite k.unlisted rollover

/-- A rotation that goes through the pairs in their own order. -/
def rotate (suite : Suite) : Operation Rollover.Summary := rotateBy .sorted suite

/-- The check that the agenda wakes a keyring for: a rotation if the keyring is running. A fault is
left to the next check. -/
def check (suite : Suite) (s : Station) : Station :=
  if s.keyring.running then
    match rotate suite s with
    | .ok _ s => s
    | .error _ s => s
  else s

end SealedStream.Station
