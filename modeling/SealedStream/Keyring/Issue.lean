import SealedStream.Keyring.Basic

/-!
# Issuing tickets

A stream is opened with a ticket under the current secret of its pair. The vault reserves the stream's
number first, so no number is handed out twice.
-/

namespace SealedStream.Station

/-- A ticket for the next stream to a pair; `none` if no current secret is held, or if it is not
stored any more. -/
def issue (pair : Pair) : Operation (Option Ticket) := do
  let some s := ((← get).keyring.held[pair]?).bind (·.current) | return none
  let some stream ← onVault .reserve (Vault.reserve ⟨pair, s.period⟩) | return none
  return some { toPair := pair, key := s.key, stream, side := s.link.side }

end SealedStream.Station
