import SealedStream.Fault
import SealedStream.Identity

/-!
# Faults of the keyring

What can stop an operation of the keyring.
-/

namespace SealedStream

/-- Why the keyring refused an operation. -/
inductive KeyringFault where
  | store (fault : StoreFault)
  | crypto (fault : CryptoFault)
  /-- The clock reads `now`, but a secret is only created at `creation`. -/
  | clockBehind (secret : PeriodId) (now : Nat) (creation : Int)
  | alreadyRunning
deriving DecidableEq, Repr, Inhabited

/-- The written form of a fault. -/
def KeyringFault.text : KeyringFault → String
  | store fault => "persistence failed: " ++ fault.text
  | crypto fault => "crypto error: " ++ fault.text
  | clockBehind secret now creation =>
    "clock moved backwards for contact " ++ toString secret.contact ++ " on transport " ++
      secret.transport ++ ": now " ++ toString now ++ " ms is before creation " ++
      toString creation ++ " ms of period " ++ toString secret.period
  | alreadyRunning => "key manager already running"

end SealedStream
