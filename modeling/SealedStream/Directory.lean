import SealedStream.Vault.Guarded

/-!
# The tag directory

For every listed secret the directory knows the tags of the streams that the peer may open next,
one for each unseen number of the secret's window. Looking up a tag marks its stream as seen, stores
the window, and makes room for the numbers that the window now covers.

A tag leads to the secret that listed it last. Removing a secret removes all the tags it listed,
whichever secret they lead to by then.

## Main definitions

* `Directory.add`, `Directory.remove` and its kin — which secrets are listed.
* `Registry.recognize` — the stream that a tag announces.
-/

namespace SealedStream

open Std

/-- A listed secret, with the tags it listed by stream number. -/
structure Listing where
  link : Link
  key : Key
  tagKey : Key
  window : SeenWindow
  tags : ExtTreeMap Nat Tag

/-- The listed secrets, and what every tag leads to: a secret and a stream number. -/
structure Directory where
  tags : ExtTreeMap Tag (PeriodId × Nat)
  listings : ExtTreeMap PeriodId Listing

namespace Directory

/-- A directory that lists nothing. -/
def empty : Directory := ⟨∅, ∅⟩

instance : Inhabited Directory := ⟨empty⟩

/-- The tags of some stream numbers. -/
def tagsOf (suite : Suite) (tagKey : Key) (numbers : List Nat) : List (Nat × Tag) :=
  numbers.map fun n => (n, suite.tag tagKey n)

/-- Lets every tag of the list lead to the secret `id` and the tag's number. -/
def pointTags (id : PeriodId) (listed : List (Nat × Tag)) (tags : ExtTreeMap Tag (PeriodId × Nat)) :
    ExtTreeMap Tag (PeriodId × Nat) :=
  listed.foldl (fun tags entry => tags.insert entry.2 (id, entry.1)) tags

/-- Records the tags of the list by their numbers. -/
def recordTags (listed : List (Nat × Tag)) (tags : ExtTreeMap Nat Tag) : ExtTreeMap Nat Tag :=
  listed.foldl (fun tags entry => tags.insert entry.1 entry.2) tags

/-- The secret and the number that some bytes lead to, if they are a tag. -/
def lookup? (d : Directory) (bytes : Bytes) : Option (PeriodId × Nat) :=
  if wide : bytes.length = 16 then d.tags[(⟨bytes.toArray, wide⟩ : Tag)]? else none

/-- Takes a secret out of the directory, with every tag it listed. -/
def remove (id : PeriodId) (d : Directory) : Directory :=
  match d.listings[id]? with
  | none => d
  | some listing =>
    { tags := listing.tags.values.foldl (·.erase ·) d.tags
      listings := d.listings.erase id }

/-- Takes out the secrets whose identity satisfies `p`. -/
def removeWhere (p : PeriodId → Bool) (d : Directory) : Directory :=
  (d.listings.keys.filter p).foldl (fun d id => d.remove id) d

/-- Takes out the secrets of a contact. -/
def removeContact (contact : Contact) (d : Directory) : Directory :=
  d.removeWhere (·.contact = contact)

/-- Takes out the secrets of a transport. -/
def removeTransport (transport : Transport) (d : Directory) : Directory :=
  d.removeWhere (·.transport = transport)

/-- Lists a secret under the numbers its window has not seen. The peer writes the incoming streams,
so the tags are those of the other side. What was listed under the same identity is taken out. -/
def add (suite : Suite) (s : PeriodSecret) (d : Directory) : Directory :=
  let tagKey := suite.tagKey s.link.side.other s.key
  let listed := tagsOf suite tagKey s.incoming.unseen
  let cleared := d.remove s.id
  { tags := pointTags s.id listed cleared.tags
    listings := cleared.listings.insert s.id
      { link := s.link, key := s.key, tagKey, window := s.incoming, tags := recordTags listed ∅ } }

end Directory

/-! ## Recognition -/

/-- A directory and the vault that keeps its windows. -/
structure Registry where
  vault : GuardedVault
  directory : Directory

namespace Registry

/-- A registry that holds and lists nothing. -/
def empty : Registry := ⟨.empty, .empty⟩

instance : Inhabited Registry := ⟨empty⟩

/-- A registry in which the given secrets were stored and listed one by one. -/
def ofSecrets (suite : Suite) (secrets : List PeriodSecret) : Registry :=
  { vault := ⟨{ Vault.empty with rows := secrets.foldl Vault.put ∅ }, .clear⟩
    directory := secrets.foldl (fun d s => d.add suite s) .empty }

/-- A call on the vault of the registry. -/
def onVault {ε α : Type} (name : StoreFault → ε) (kind : VaultCall) (act : Vault.Call α) :
    Action ε Registry α :=
  Action.focus vault (fun v r => { r with vault := v }) name (GuardedVault.call kind act)

/-- Changes the directory of the registry. -/
def onDirectory {ε : Type} (f : Directory → Directory) : Action ε Registry Unit :=
  modify fun r => { r with directory := f r.directory }

/-- The directory after the stream `number` of a listing was seen and `listed` entered its window. -/
def advance (d : Directory) (id : PeriodId) (listing : Listing) (tag : Tag) (number : Nat)
    (window : SeenWindow) (listed : List (Nat × Tag)) : Directory :=
  { tags := Directory.pointTags id listed (d.tags.erase tag)
    listings := d.listings.insert id
      { listing with
        window := window
        tags := Directory.recordTags listed (listing.tags.erase number) } }

/-- The stream that a tag announces, if it leads to a listed secret whose window has not seen the
stream. The moved window is stored before the directory changes, so a stream that was announced
once is never announced again after a fault or a restart. -/
def recognize (suite : Suite) (bytes : Bytes) : Action LookupFault Registry (Option Ticket) := do
  if wide : bytes.length = 16 then
    let tag : Tag := ⟨bytes.toArray, wide⟩
    let d := (← get).directory
    let some (id, number) := d.tags[tag]? | return none
    let some listing := d.listings[id]? | return none
    let some (window, entered) := listing.window.mark? number | return none
    let listed := Directory.tagsOf suite listing.tagKey entered
    onVault .store .setWindow (Vault.setWindow id window)
    onDirectory fun d => advance d id listing tag number window listed
    return some
      { toPair := listing.link.toPair, key := listing.key, stream := number,
        side := listing.link.side }
  else return none

end Registry

end SealedStream
