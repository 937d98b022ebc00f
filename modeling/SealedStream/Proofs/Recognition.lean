import SealedStream.Directory
import SealedStream.Proofs.Vault

/-!
# Recognizing tags

A tag is recognized if it leads to a listed secret whose window takes the number. Then the window
is stored and the directory moves on with it; in all other cases everything stays as it is.

## Main statements

* `Registry.recognize_cases` — how the recognition of a tag can end.
-/

namespace SealedStream

open Std SealedStream.Action

/-- The rows after a window was stored, if its secret is. -/
def Vault.withWindow (id : PeriodId) (window : SeenWindow)
    (rows : ExtTreeMap PeriodId PeriodSecret) : ExtTreeMap PeriodId PeriodSecret :=
  (rows[id]?).elim rows fun row => rows.insert id { row with incoming := window }

theorem Vault.mem_withWindow (id : PeriodId) (window : SeenWindow)
    (rows : ExtTreeMap PeriodId PeriodSecret) (id' : PeriodId) :
    id' ∈ withWindow id window rows ↔ id' ∈ rows := by
  unfold withWindow
  cases kept : rows[id]? with
  | none => rfl
  | some row => exact mem_insert_of_kept kept _ id'

/-- A window may be stored whatever the property is of. -/
theorem Vault.RowsOf.withWindow {p : PeriodSecret → Prop} {rows : ExtTreeMap PeriodId PeriodSecret}
    (of : RowsOf p rows) (lasting : Lasting p) (id : PeriodId) (window : SeenWindow) :
    RowsOf p (Vault.withWindow id window rows) := by
  unfold Vault.withWindow
  cases kept : rows[id]? with
  | none => exact of
  | some row => exact of.insert (of id row kept).1 (lasting row _ window (of id row kept).2)

namespace Registry

/-- A tag is recognized as a stream of the secret `id`. -/
structure Recognizes (suite : Suite) (bytes : Bytes) (d : Directory) (id : PeriodId)
    (ticket : Ticket) (window : SeenWindow) (d' : Directory) : Prop where
  lookup : d.lookup? bytes = some (id, ticket.stream)
  listed : ∃ listing entered tag, d.listings[id]? = some listing ∧
    d.tags[tag]? = some (id, ticket.stream) ∧
    listing.window.mark? ticket.stream = some (window, entered) ∧
    ticket = ⟨listing.link.toPair, listing.key, ticket.stream, listing.link.side⟩ ∧
    d' = advance d id listing tag ticket.stream window
      (Directory.tagsOf suite listing.tagKey entered)

variable {suite : Suite} {bytes : Bytes} {g g' : Registry}

/-- Storing a window goes well only if the vault accepts it. -/
theorem accepts_of_setWindow {id : PeriodId} {window : SeenWindow} {v v' : GuardedVault}
    (h : (GuardedVault.call .setWindow (Vault.setWindow id window)).Ends v (.ok ()) v') :
    v.Accepts .setWindow := by
  simp only [GuardedVault.call, ends_bind_ok_iff, ends_focus_ok_iff, Gate.ends_pass_iff] at h
  obtain ⟨⟨⟩, u, ⟨gate, ⟨-, passed⟩, rfl⟩, w, ends, -⟩ := h
  refine ⟨?_, ?_⟩
  · unfold Vault.setWindow at ends
    rw [Vault.ends_demandWritable_bind_iff] at ends
    split at ends
    · assumption
    · cases ends.1
  · cases turned : v.gate.verdict v.gate.calls .setWindow with
    | none => rfl
    | some fault =>
      rw [turned] at passed
      cases passed

theorem onVault_setWindow_cases {id : PeriodId} {window : SeenWindow} {r : Except LookupFault Unit}
    (h : (onVault LookupFault.store .setWindow (Vault.setWindow id window)).Ends g r g') :
    g'.directory = g.directory ∧ g'.vault.gate.verdict = g.vault.gate.verdict ∧
      (g'.vault.vault = g.vault.vault ∧ (∃ fault, r = .error fault) ∧
          ¬ g.vault.Accepts .setWindow ∨
        r = .ok () ∧ g.vault.Accepts .setWindow ∧ g'.vault.vault = { g.vault.vault with
          rows := Vault.withWindow id window g.vault.vault.rows }) := by
  obtain ⟨r', v, called, rfl, rfl⟩ := ends_focus_iff.1 h
  obtain ⟨gate, ⟨same, ⟨fault, rfl⟩, refused⟩ | ends⟩ := GuardedVault.call_cases called
  · exact ⟨rfl, gate, .inl ⟨same, ⟨_, rfl⟩, refused⟩⟩
  · refine ⟨rfl, gate, ?_⟩
    rcases Vault.setWindow_cases ends with ⟨same, writable, ok⟩ | ⟨row, kept, rfl, changed⟩
    · cases r' with
      | error fault =>
        refine .inl ⟨same, ⟨_, rfl⟩, fun accepts => ?_⟩
        cases writable accepts.1
      | ok _ => exact .inr ⟨rfl, accepts_of_setWindow called, by simp [same, Vault.withWindow, ok rfl]⟩
    · exact .inr ⟨rfl, accepts_of_setWindow called, by simp [changed, Vault.withWindow, kept]⟩

/-- No stream is announced if the bytes lead to no listing, if the window does not take the number, or
if the vault does not take the window; otherwise the stream is announced. -/
theorem recognize_cases {r : Except LookupFault (Option Ticket)}
    (h : (recognize suite bytes).Ends g r g') :
    g'.vault.gate.verdict = g.vault.gate.verdict ∧
      (g'.vault.vault = g.vault.vault ∧ g'.directory = g.directory ∧
          (∀ ticket, r ≠ .ok (some ticket)) ∧
          (g.vault.Accepts .setWindow → ∀ id number listing,
            g.directory.lookup? bytes = some (id, number) → g.directory.listings[id]? = some listing →
              listing.window.mark? number = none) ∨
        ∃ id ticket window, r = .ok (some ticket) ∧ g.vault.Accepts .setWindow ∧
          Recognizes suite bytes g.directory id ticket window g'.directory ∧
          g'.vault.vault = { g.vault.vault with
            rows := Vault.withWindow id window g.vault.vault.rows }) := by
  unfold recognize at h
  split at h
  · rename_i wide
    have lookup : g.directory.lookup? bytes = g.directory.tags[(⟨bytes.toArray, wide⟩ : Tag)]? := by
      simp only [Directory.lookup?, dif_pos wide]
    rw [ends_get_bind_iff] at h
    cases announced : g.directory.tags[(⟨bytes.toArray, wide⟩ : Tag)]? with
    | none =>
      simp only [announced, ends_pure_iff] at h
      obtain ⟨rfl, rfl⟩ := h
      exact ⟨rfl, .inl ⟨rfl, rfl, by simp, by simp [lookup, announced]⟩⟩
    | some entry =>
      obtain ⟨id, number⟩ := entry
      simp only [announced] at h
      cases listed : g.directory.listings[id]? with
      | none =>
        simp only [listed, ends_pure_iff] at h
        obtain ⟨rfl, rfl⟩ := h
        exact ⟨rfl, .inl ⟨rfl, rfl, by simp, by grind⟩⟩
      | some listing =>
        simp only [listed] at h
        cases marked : listing.window.mark? number with
        | none =>
          simp only [marked, ends_pure_iff] at h
          obtain ⟨rfl, rfl⟩ := h
          exact ⟨rfl, .inl ⟨rfl, rfl, by simp, by grind⟩⟩
        | some moved =>
          obtain ⟨window, entered⟩ := moved
          simp only [marked] at h
          rcases ends_bind_iff.1 h with ⟨fault, storing, rfl⟩ | ⟨_, u, storing, rest⟩
          · obtain ⟨same, gate, ⟨kept, -, refused⟩ | ⟨ok, -⟩⟩ := onVault_setWindow_cases storing
            · exact ⟨gate, .inl ⟨kept, same, by simp, fun accepts => absurd accepts refused⟩⟩
            · cases ok
          · obtain ⟨same, gate, ⟨-, ⟨_, fail⟩, -⟩ | ⟨-, accepts, changed⟩⟩ := onVault_setWindow_cases storing
            · cases fail
            · simp only [onDirectory, ends_modify_bind_iff, ends_pure_iff] at rest
              obtain ⟨rfl, rfl⟩ := rest
              refine ⟨gate, .inr ⟨id, _, window, rfl, accepts, ⟨lookup.trans announced, listing, entered, _,
                listed, announced, marked, rfl, ?_⟩, changed⟩⟩
              rw [same]
  · rename_i narrow
    obtain ⟨rfl, rfl⟩ := ends_pure_iff.1 h
    exact ⟨rfl, .inl ⟨rfl, rfl, by simp, by simp [Directory.lookup?, narrow]⟩⟩

end Registry

end SealedStream
