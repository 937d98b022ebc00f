import SealedStream.Keyring.Fault
import SealedStream.Rotation.Trio

/-!
# Rollovers

A rollover says what becomes of a list of secrets at some time: which of them are held and in which
place, which are dead, which have lost their transport, and which new ones are derived for the places
left empty. It only reckons; storing and listing are the keyring's work.

A missing secret is derived forward along the chain from the latest earlier secret of its pair, even
from a dead one. A place with no earlier secret stays empty.

The places of one pair are filled in their order, but no order of the pairs is laid down. It is a
parameter where it matters.

The times of secrets and the current periods are reckoned in numbers of limited range. The program stops
at one that leaves it.

## Main definitions

* `Passage` — an order in which the pairs are gone through.
* `Rollover.planBy`, `Rollover.plan` — the rollover of a list of secrets, in any order of the pairs and
  in their own.
* `Rollover.plan?` — the same as it is reckoned.
* `Rollover.retired`, `Rollover.summary` — what it takes away and adds.
-/

namespace SealedStream

open Std

/-! ## Orders of the pairs -/

/-- Two lists have the same secrets of every pair in the same order. -/
def Alongside (secrets secrets' : List PeriodSecret) : Prop :=
  ∀ pair : Pair, secrets.filter (·.pair = pair) = secrets'.filter (·.pair = pair)

/-- An order of the pairs in which to go through secrets. The secrets of one pair keep their order. -/
structure Passage where
  arrange : List PeriodSecret → List PeriodSecret
  alongside : ∀ secrets, Alongside (arrange secrets) secrets

/-- The pairs in their own order, in which maps list them. -/
def Passage.sorted : Passage := ⟨id, fun _ _ => rfl⟩

instance : Inhabited Passage := ⟨.sorted⟩

/-! ## Rollovers -/

/-- What becomes of a list of secrets. -/
structure Rollover where
  /-- The live secrets, derived ones included. -/
  held : ExtTreeMap Pair Trio
  /-- The secrets derived for empty places. -/
  created : List PeriodSecret
  /-- The secrets past their destruction. -/
  dead : List PeriodSecret
  /-- The secrets whose transport is not known. -/
  orphaned : List PeriodSecret

namespace Rollover

/-- The rollover of no secrets. -/
def empty : Rollover := ⟨∅, [], [], []⟩

instance : Inhabited Rollover := ⟨empty⟩

/-- Nothing that is stored would change. -/
def Idle (r : Rollover) : Prop := r.created = [] ∧ r.dead = [] ∧ r.orphaned = []

instance (r : Rollover) : Decidable r.Idle := inferInstanceAs (Decidable (_ ∧ _ ∧ _))

/-- The identities of the dead and of the orphaned secrets. -/
def retired (r : Rollover) : List PeriodId := (r.dead ++ r.orphaned).map (·.id)

/-- The secrets that a rollover takes away and adds, in order of identity. -/
structure Summary where
  retired : List PeriodId
  created : List PeriodId
deriving DecidableEq, Repr

/-- Nothing was taken away or added. -/
def Summary.Empty (s : Summary) : Prop := s.retired = [] ∧ s.created = []

instance (s : Summary) : Decidable s.Empty := inferInstanceAs (Decidable (_ ∧ _))

/-- Identities in ascending order. -/
def sortIds (ids : List PeriodId) : List PeriodId := ids.mergeSort fun a b => (compare a b).isLE

/-- What a rollover takes away and adds. -/
def summary (r : Rollover) : Summary := ⟨sortIds r.retired, sortIds (r.created.map (·.id))⟩

/-! ## Sorting the secrets -/

/-- The lifespan of a secret; `none` if its transport has no latency. -/
def lifespan? (latencies : ExtTreeMap Transport Nat) (tolerance : Nat) (s : PeriodSecret) :
    Option Schedule.Lifespan :=
  (latencies[s.link.transport]?).map fun latency =>
    Schedule.lifespan s.link.epoch (Schedule.interval latency tolerance) s.period

/-- Where a secret stands at `now`; `none` if its transport has no latency. -/
def stage? (now : Nat) (latencies : ExtTreeMap Transport Nat) (tolerance : Nat) (s : PeriodSecret) :
    Option Schedule.Stage :=
  (lifespan? latencies tolerance s).map (·.stageAt now)

/-- The fault of a secret that is not yet created: the clock has moved backwards. -/
def premature? (now : Nat) (latencies : ExtTreeMap Transport Nat) (tolerance : Nat)
    (s : PeriodSecret) : Option KeyringFault := do
  let span ← lifespan? latencies tolerance s
  if span.stageAt now = .notYetCreated then some (.clockBehind s.id now span.creation) else none

/-- The live ones of some secrets by pair and place. In a place, the later secret of the list
stands. -/
def liveTrios (stage : PeriodSecret → Option Schedule.Stage) (secrets : List PeriodSecret) :
    ExtTreeMap Pair Trio :=
  secrets.foldl (fun held s =>
    match stage s with
    | some (.live turn) => held.insert s.pair (((held[s.pair]?).getD .empty).set turn s)
    | _ => held) ∅

/-! ## Filling empty places -/

/-- The last of the secrets with the greatest period below `period`. -/
def latestBelow (period : Nat) (secrets : List PeriodSecret) : Option PeriodSecret :=
  secrets.foldl (fun best s =>
    if s.period < period then
      match best with
      | some b => if b.period ≤ s.period then some s else best
      | none => some s
    else best) none

/-- Derives the secret of period `period` of a link from the latest earlier one among `sources`. -/
def derive? (suite : Suite) (link : Link) (period : Nat) (sources : List PeriodSecret) :
    Option PeriodSecret :=
  (latestBelow period sources).map fun source =>
    .fresh link period (suite.walk source.period period source.key)

/-- The secrets for the given places when `current` is the current period. Each is derived from the
sources or from one derived before it. -/
def deriveMissing (suite : Suite) (link : Link) (current : Nat) (sources : List PeriodSecret)
    (turns : List Turn) : List PeriodSecret :=
  turns.foldl (fun created turn =>
    match (turn.period current).bind fun period =>
      derive? suite link period (sources ++ created) with
    | some s => created ++ [s]
    | none => created) []

/-- Puts secrets of a link in the places where they stand at `now`. -/
def place (now interval : Nat) (link : Link) (secrets : List PeriodSecret) (t : Trio) : Trio :=
  secrets.foldl (fun t s =>
    match (Schedule.lifespan link.epoch interval s.period).stageAt now with
    | .live turn => t.set turn s
    | _ => t) t

/-- The trio of a pair with its empty places filled, and the secrets derived for that. The link is
that of the oldest live secret, or of the first dead one. -/
def fill (suite : Suite) (now interval : Nat) (dead : List PeriodSecret) (t : Trio) :
    Trio × List PeriodSecret :=
  match (t.secrets ++ dead).head? with
  | none => (t, [])
  | some first =>
    match Schedule.periodAt first.link.epoch interval now with
    | none => (t, [])
    | some current =>
      let created := deriveMissing suite first.link current (t.secrets ++ dead) t.missing
      (place now interval first.link created t, created)

/-- The trio of every pair with a live or dead secret. -/
def trios (dead : List PeriodSecret) (live : ExtTreeMap Pair Trio) : ExtTreeMap Pair Trio :=
  dead.foldl (fun pairs s => pairs.insertIfNew s.pair .empty) live

/-- The trio of every pair with a live or dead secret, its empty places filled, and the secrets
derived for that. -/
def fillAll (suite : Suite) (now : Nat) (latencies : ExtTreeMap Transport Nat) (tolerance : Nat)
    (dead : List PeriodSecret) (live : ExtTreeMap Pair Trio) :
    ExtTreeMap Pair (Trio × List PeriodSecret) :=
  (trios dead live).map fun pair trio =>
    match latencies[pair.transport]? with
    | none => (trio, [])
    | some latency =>
      fill suite now (Schedule.interval latency tolerance) (dead.filter (·.pair = pair)) trio

/-- The rollover of a list of secrets at `now`. The first secret of the list that is not yet created
makes it fail. The pairs are filled in the order of `passage`. -/
def planBy (passage : Passage) (suite : Suite) (now : Nat) (latencies : ExtTreeMap Transport Nat)
    (tolerance : Nat) (secrets : List PeriodSecret) : Except KeyringFault Rollover :=
  match secrets.findSome? (premature? now latencies tolerance) with
  | some fault => throw fault
  | none =>
    let stage := stage? now latencies tolerance
    let dead := secrets.filter (stage · = some .dead)
    let filled := fillAll suite now latencies tolerance dead (liveTrios stage secrets)
    pure
      { held := (filled.filter fun _ f => ¬ f.1.Vacant).map fun _ f => f.1
        created := passage.arrange (filled.values.flatMap (·.2))
        dead
        orphaned := secrets.filter (stage · = none) }

/-- The rollover of a list of secrets with the pairs filled in their own order. -/
def plan (suite : Suite) (now : Nat) (latencies : ExtTreeMap Transport Nat) (tolerance : Nat)
    (secrets : List PeriodSecret) : Except KeyringFault Rollover :=
  planBy .sorted suite now latencies tolerance secrets

/-! ## As reckoned -/

/-- What ends a rollover at a secret: a fault if it is not yet created, or `some none` if the program stops
at one of its times. -/
def halt? (now : Nat) (latencies : ExtTreeMap Transport Nat) (tolerance : Nat) (s : PeriodSecret) :
    Option (Option KeyringFault) := do
  let latency ← latencies[s.link.transport]?
  match Schedule.lifespanOn .stops s.link.epoch (Schedule.interval latency tolerance) s.period with
  | none => some none
  | some span =>
    if span.stageAt now = .notYetCreated then some (some (.clockBehind s.id now span.creation)) else none

/-- Whether the program stops at the current period of a trio with an empty place. -/
def overfills (now interval : Nat) (dead : List PeriodSecret) (t : Trio) : Bool :=
  ¬ t.Full ∧ ((t.secrets ++ dead).head?).any fun first =>
    Schedule.periodOn .stops first.link.epoch interval now = none

/-- The rollover of a list of secrets as it is reckoned; `none` if the program stops. The secrets are gone
through in order, and then the pairs whose places are to be filled. -/
def plan? (suite : Suite) (now : Nat) (latencies : ExtTreeMap Transport Nat) (tolerance : Nat)
    (secrets : List PeriodSecret) : Option (Except KeyringFault Rollover) :=
  match secrets.findSome? (halt? now latencies tolerance) with
  | some none => none
  | some (some fault) => some (throw fault)
  | none =>
    let stage := stage? now latencies tolerance
    let dead := secrets.filter (stage · = some .dead)
    let stops := (trios dead (liveTrios stage secrets)).toList.any fun (pair, trio) =>
      (latencies[pair.transport]?).any fun latency =>
        overfills now (Schedule.interval latency tolerance) (dead.filter (·.pair = pair)) trio
    if stops then none else some (plan suite now latencies tolerance secrets)

end Rollover

end SealedStream
