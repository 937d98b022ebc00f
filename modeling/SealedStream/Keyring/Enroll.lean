import SealedStream.Keyring.Basic

/-!
# Enrolling a link

A new link brings the secret of its handshake. The chain starts from it with period 0 and is walked
to the three periods that are live now. They replace whatever was held for the pair before. If the
link was enrolled before, what is stored of these periods is kept.

## Main definitions

* `Station.liveSecrets` — the three live secrets of a chain.
* `Station.enroll` — takes up a link.
-/

namespace SealedStream.Station

/-- The secrets of the periods around `current`, oldest first, from the secret of the handshake. -/
def liveSecrets (suite : Suite) (link : Link) (current : Nat) (handshake : Key) :
    List PeriodSecret :=
  let old := suite.walk 0 (current - 1) (suite.next 0 handshake)
  let mid := suite.next current old
  [.fresh link (current - 1) old, .fresh link current mid,
    .fresh link (current + 1) (suite.next (current + 1) mid)]

/-- The three secrets in their places, given oldest first. -/
def trioOf (secrets : List PeriodSecret) : Trio := ⟨secrets[0]?, secrets[1]?, secrets[2]?⟩

/-- The identities held for a pair that are not among those of `secrets`. -/
def staleIds (k : Keyring) (pair : Pair) (secrets : List PeriodSecret) : List PeriodId :=
  match k.held[pair]? with
  | none => []
  | some trio => (trio.secrets.map (·.id)).filter fun id => !(secrets.map (·.id)).contains id

/-- The stored form of a secret, or the secret itself if it is not stored. -/
def storedForm (stored : List PeriodSecret) (s : PeriodSecret) : PeriodSecret :=
  (stored.find? (·.id = s.id)).getD s

/-- Takes up a link with the latency of its transport and the secret of its handshake. The secrets
are stored before they are held. -/
def enroll (suite : Suite) (link : Link) (latency : Nat) (handshake : Key) : Operation Unit := do
  let now ← now
  let interval := Schedule.interval latency (← get).keyring.settings.tolerance
  let some current := Schedule.periodAt link.epoch interval now
    | throw (.clockBehind ⟨link.toPair, 2⟩ now link.epoch)
  let derived := liveSecrets suite link current handshake
  let stale := staleIds (← get).keyring link.toPair derived
  onVault .add (Vault.add derived)
  if stale ≠ [] then onVault .remove (Vault.remove stale)
  let stored ← onVault .secrets Vault.secrets
  let secrets := derived.map (storedForm stored)
  onKeyring fun k =>
    { k with
      latencies := k.latencies.insert link.transport latency
      held := k.held.insert link.toPair (trioOf secrets) }
  onDirectory fun d => stale.foldl (fun d id => d.remove id) d
  listSecrets suite secrets

end SealedStream.Station
