import SealedStream.Keyring.Basic

/-!
# Reacting to notices

A contact or a transport that is gone takes its secrets with it, from the vault, the keyring and the
directory. If the vault refuses, the other two go on. A transport that can be used brings its latency.
-/

namespace SealedStream.Station

/-- Makes a call on the vault; if it fails, nothing more is done about it. -/
def tryVault (kind : VaultCall) (act : Vault.Call Unit) (s : Station) : Station :=
  match onVault kind act s with
  | .ok _ s => s
  | .error _ s => s

/-- Acts on a notice. -/
def react (notice : Notice) (s : Station) : Station :=
  match notice with
  | .contactGone contact =>
    let s := tryVault .removeContact (Vault.removeContact contact) s
    { keyring :=
        { s.keyring with held := s.keyring.held.filter fun pair _ => pair.contact ≠ contact }
      post := { s.post with directory := s.post.directory.removeContact contact } }
  | .transportUp transport latency =>
    { s with keyring.latencies := s.keyring.latencies.insert transport latency }
  | .transportGone transport =>
    let s := tryVault .removeTransport (Vault.removeTransport transport) s
    { keyring :=
        { s.keyring with
          latencies := s.keyring.latencies.erase transport
          held := s.keyring.held.filter fun pair _ => pair.transport ≠ transport }
      post := { s.post with directory := s.post.directory.removeTransport transport } }

end SealedStream.Station
