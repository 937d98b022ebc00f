/-!
# Faults of keys and of storage

What can go wrong with cryptography, with the storage of secrets, and with looking up a tag, which
needs both. Every fault has one written form.

## Main definitions

* `CryptoFault`, `StoreFault`, `LookupFault` — the causes.
* `CryptoFault.text`, `StoreFault.text`, `LookupFault.text` — their written forms.
-/

namespace SealedStream

/-- Why an operation on keys or numbers was refused. -/
inductive CryptoFault where
  /-- A text could not be sealed. -/
  | sealing
  /-- A sealed text is not genuine. -/
  | opening
  /-- A key could not be derived. -/
  | derivation
  /-- A number was seen before or lies outside the window. -/
  | replay
deriving DecidableEq, Repr, Inhabited

/-- The written form of a fault. -/
def CryptoFault.text : CryptoFault → String
  | sealing => "AEAD encryption failed"
  | opening => "AEAD decryption failed (invalid tag or corrupted)"
  | derivation => "key derivation failed"
  | replay => "number already seen or outside the reordering window"

/-- Why the storage of secrets refused a call. -/
inductive StoreFault where
  /-- The storage itself refused, for the given reason. -/
  | backend (reason : String)
  /-- Reading or writing failed below the storage. -/
  | io (reason : String)
deriving DecidableEq, Repr, Inhabited

/-- The written form of a fault. -/
def StoreFault.text : StoreFault → String
  | backend reason => "storage backend error: " ++ reason
  | io reason => "storage i/o error: " ++ reason

/-- Why a tag could not be looked up. -/
inductive LookupFault where
  | store (fault : StoreFault)
  | crypto (fault : CryptoFault)
deriving DecidableEq, Repr, Inhabited

/-- The written form of a fault. -/
def LookupFault.text : LookupFault → String
  | store fault => "store error: " ++ fault.text
  | crypto fault => "crypto error: " ++ fault.text

end SealedStream
