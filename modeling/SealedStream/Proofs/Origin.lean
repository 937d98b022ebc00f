import SealedStream.Proofs.Chain
import SealedStream.Secret

/-!
# Genuine secrets

The link of a pair and the secret of its handshake fix the secret of every period. A secret is
genuine if it is the one that they fix, whatever its counters say.

## Main definitions

* `Origin` — the link and the handshake of a pair.
* `PeriodSecret.Genuine` — the link is the pair's, the key is the chain's.
* `PeriodSecret.ofChain` — the genuine secret under which no stream was opened yet.
-/

namespace SealedStream

/-- Where the secrets of a pair come from. -/
structure Origin where
  epoch : Nat
  side : Side
  handshake : Key

/-- The link with a pair of the given origin. -/
def Origin.link (o : Origin) (pair : Pair) : Link := ⟨pair, o.epoch, o.side⟩

@[simp] theorem Origin.toPair_link (o : Origin) (pair : Pair) : (o.link pair).toPair = pair := rfl

namespace PeriodSecret

variable (suite : Suite) (origin : Pair → Origin)

/-- The secret has the link of its pair and the key of its period. -/
structure Genuine (s : PeriodSecret) : Prop where
  link : s.link = (origin s.pair).link s.pair
  key : s.key = suite.chain (origin s.pair).handshake s.period

/-- The secret of a period, with no stream opened under it yet. -/
def ofChain (pair : Pair) (period : Nat) : PeriodSecret :=
  .fresh ((origin pair).link pair) period (suite.chain (origin pair).handshake period)

@[simp] theorem pair_ofChain (pair : Pair) (period : Nat) :
    (ofChain suite origin pair period).pair = pair := rfl

@[simp] theorem period_ofChain (pair : Pair) (period : Nat) :
    (ofChain suite origin pair period).period = period := rfl

@[simp] theorem id_ofChain (pair : Pair) (period : Nat) :
    (ofChain suite origin pair period).id = ⟨pair, period⟩ := rfl

theorem genuine_ofChain (pair : Pair) (period : Nat) :
    (ofChain suite origin pair period).Genuine suite origin := ⟨rfl, rfl⟩

variable {suite origin}

/-- Genuine secrets of one identity have the same key. -/
theorem Genuine.key_eq {s t : PeriodSecret} (hs : s.Genuine suite origin)
    (ht : t.Genuine suite origin) (same : s.id = t.id) : s.key = t.key := by
  obtain ⟨pair, period⟩ := PeriodId.mk.inj same
  rw [hs.key, ht.key, show s.pair = t.pair from pair, period]

end PeriodSecret

end SealedStream
