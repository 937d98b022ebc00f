import SealedStream.Proofs.Bare
import SealedStream.Proofs.Directory
import SealedStream.Proofs.Log
import SealedStream.Proofs.Maps
import SealedStream.Proofs.Recognition
import SealedStream.Proofs.SeenWindow

/-!
# Streams are announced once

A registry recognizes tags while secrets are listed and taken out, while calls on its vault fail, and
while others use the vault. Its directory may be lost at any time. The window of a listing is always
that of the row, since it is stored before the directory moves on, and whoever lists a secret again
takes it from the vault; so the row has seen every stream that was announced under its secret.

## Main definitions

* `Registry.Act` — one thing that happens to a registry.
* `Registry.Act.Fits` — secrets are listed as they are stored, and rows keep their windows.
* `Registry.Current` — the listed windows are those of the rows.

## Main statements

* `Registry.step_cases` — an act announces a stream, or it leaves all windows alone.
* `Registry.nodup_answers` — no stream is announced twice.
-/

namespace SealedStream.Registry

open Std SealedStream.Action

/-- What can happen to a registry. -/
inductive Act where
  | recognize (bytes : Bytes)
  | list (s : PeriodSecret)
  | unlist (id : PeriodId)
  | unlistContact (contact : Contact)
  | unlistTransport (transport : Transport)
  /-- The directory is emptied, or it is lost and another one takes its place. -/
  | clear
  /-- The vault is used by others. -/
  | update (vault : GuardedVault)

/-- Carries out an act; gives the identity of the secret and the number of the stream that it
announces, if any. -/
def Act.perform (suite : Suite) (act : Act) (r : Registry) : Option (PeriodId × Nat) × Registry :=
  match act with
  | .recognize bytes =>
    let (answer, t) := (Registry.recognize suite bytes).toExcept r
    (match r.directory.lookup? bytes, answer with
      | some (id, _), .ok (some ticket) => some (id, ticket.stream)
      | _, _ => none, t)
  | .list s => (none, { r with directory := r.directory.add suite s })
  | .unlist id => (none, { r with directory := r.directory.remove id })
  | .unlistContact contact => (none, { r with directory := r.directory.removeContact contact })
  | .unlistTransport transport =>
    (none, { r with directory := r.directory.removeTransport transport })
  | .clear => (none, { r with directory := .empty })
  | .update vault => (none, { r with vault })

/-- The acts of a run, with the streams that they announce. -/
abbrev log (suite : Suite) (acts : List Act) (r : Registry) :
    List (Log.Entry Registry Act (Option (PeriodId × Nat))) :=
  SealedStream.log (Act.perform suite) acts r

/-- A secret is listed as it is stored, and no row is removed or gets another window. -/
def Act.Fits (act : Act) (r : Registry) : Prop :=
  match act with
  | .list s => r.vault.vault.rows[s.id]? = some s
  | .update vault => ∀ id ∈ r.vault.vault.rows.keys,
      (vault.vault.rows[id]?).map (·.incoming) = (r.vault.vault.rows[id]?).map (·.incoming)
  | _ => True

instance (act : Act) (r : Registry) : Decidable (act.Fits r) := by
  cases act <;> unfold Act.Fits <;> infer_instance

/-- No stored window comes near the greatest count. -/
def Far (r : Registry) : Prop := ∀ row ∈ r.vault.vault.rows.values, row.incoming.base + 64 ≤ Count.top

instance (r : Registry) : Decidable r.Far := inferInstanceAs (Decidable (∀ _ ∈ _, _))

/-- The window stored for a secret. -/
def window? (r : Registry) (id : PeriodId) : Option SeenWindow :=
  (r.vault.vault.rows[id]?).map (·.incoming)

/-- Every listed window is the stored one. -/
def Current (r : Registry) : Prop :=
  ∀ (id : PeriodId) (l : Listing), r.directory.listings[id]? = some l → r.window? id = some l.window

/-- A stream that was announced is seen by the stored window of its secret. -/
def Remembers (past : Log.Entry Registry Act (Option (PeriodId × Nat))) (r : Registry) : Prop :=
  ∀ (id : PeriodId) (stream : Nat), past.report = some (id, stream) → stream < Count.top →
    ∃ window, r.window? id = some window ∧ window.Seen stream

variable {suite : Suite} {act : Act} {r : Registry} {id : PeriodId} {window : SeenWindow}

theorem window?_of_withWindow {t : Registry}
    (stored : t.vault.vault.rows = Vault.withWindow id window r.vault.vault.rows) (other : PeriodId) :
    t.window? other =
      if id = other then (r.window? other).map fun _ => window else r.window? other := by
  unfold window?
  rw [stored, Vault.withWindow]
  by_cases own : id = other
  · subst own
    cases kept : r.vault.vault.rows[id]? <;> simp [kept]
  · cases r.vault.vault.rows[id]? <;> simp [own, ExtTreeMap.getElem?_insert]

/-- An act announces a stream and moves the window of its secret, or it announces none and leaves all
stored windows alone; what it lists then has the window that is stored. -/
theorem step_cases (fits : act.Fits r) :
    let t := (act.perform suite r).2
    (∃ id l stream window entered, (act.perform suite r).1 = some (id, stream) ∧
        r.directory.listings[id]? = some l ∧ l.window.mark? stream = some (window, entered) ∧
        (∀ other, t.window? other =
          if id = other then (r.window? other).map fun _ => window else r.window? other) ∧
        ∀ (other : PeriodId) (l' : Listing), t.directory.listings[other]? = some l' →
          if id = other then l'.window = window else r.directory.listings[other]? = some l') ∨
      (act.perform suite r).1 = none ∧
        (∀ id window, r.window? id = some window → t.window? id = some window) ∧
        ∀ (id : PeriodId) (l : Listing), t.directory.listings[id]? = some l →
          r.directory.listings[id]? = some l ∨ r.window? id = some l.window := by
  cases act with
  | recognize bytes =>
    have ends := ends_toExcept (Registry.recognize suite bytes) r
    simp only [Act.perform]
    generalize (Registry.recognize suite bytes).toExcept r = ended at ends
    obtain ⟨answer, t⟩ := ended
    obtain ⟨-, ⟨kept, same, nothing, -⟩ | ⟨id, ticket, window, rfl, -, recognizes, changed⟩⟩ :=
      recognize_cases ends
    · simp only at kept same nothing
      refine .inr ⟨?_, ?_, fun id l there => .inl (same ▸ there)⟩
      · split
        · rename_i announced
          exact absurd announced (nothing _)
        · rfl
      · intro id window stored
        simpa only [window?, kept] using stored
    · obtain ⟨l, entered, tag, listed, -, marks, -, moved⟩ := recognizes.listed
      refine .inl ⟨id, l, ticket.stream, window, entered, by simp only [recognizes.lookup], listed,
        marks, window?_of_withWindow (by rw [changed]), ?_⟩
      intro other l' there
      dsimp only at there
      rw [moved, getElem?_listings_advance] at there
      grind
  | list s =>
    refine .inr ⟨rfl, fun _ _ stored => stored, ?_⟩
    intro id l there
    simp only [Act.perform, Directory.getElem?_listings_add] at there
    split at there
    · rename_i own
      cases there
      exact .inr (by rw [window?, ← own, fits]; rfl)
    · exact .inl there
  | unlist id =>
    refine .inr ⟨rfl, fun _ _ stored => stored, ?_⟩
    intro id l there
    simp only [Act.perform, Directory.getElem?_listings_remove] at there
    grind
  | unlistContact contact =>
    refine .inr ⟨rfl, fun _ _ stored => stored, ?_⟩
    intro id l there
    simp only [Act.perform, Directory.removeContact, Directory.getElem?_listings_removeWhere] at there
    grind
  | unlistTransport transport =>
    refine .inr ⟨rfl, fun _ _ stored => stored, ?_⟩
    intro id l there
    simp only [Act.perform, Directory.removeTransport, Directory.getElem?_listings_removeWhere] at there
    grind
  | clear => exact .inr ⟨rfl, fun _ _ stored => stored, by simp [Act.perform]⟩
  | update vault =>
    refine .inr ⟨rfl, ?_, fun id l there => .inl there⟩
    intro id window stored
    have mem : id ∈ r.vault.vault.rows.keys := by
      rw [ExtTreeMap.mem_keys, ExtTreeMap.mem_iff_isSome_getElem?]
      grind [window?]
    exact (fits id mem).trans stored

/-- The listed windows stay those of the rows. -/
theorem Current.step (current : Current r) (fits : act.Fits r) :
    Current (act.perform suite r).2 := by
  intro id l there
  rcases @step_cases suite _ _ fits with
    ⟨announced, l₀, stream, window, entered, -, listed, -, windows, listings⟩ |
    ⟨-, windows, listings⟩
  · have here := listings id l there
    rw [windows]
    split at here
    · rename_i own
      subst own
      rw [if_pos rfl, current _ l₀ listed, here]
      rfl
    · rename_i other
      rw [if_neg other]
      exact current id l here
  · exact windows _ _ ((listings id l there).elim (current id l) fun stored => stored)

variable {past : Log.Entry Registry Act (Option (PeriodId × Nat))}

/-- What was announced stays seen. -/
theorem Remembers.step (remembers : Remembers past r) (current : Current r) (fits : act.Fits r) :
    Remembers past (act.perform suite r).2 := by
  intro id stream made lt
  obtain ⟨window, stored, seen⟩ := remembers id stream made lt
  rcases @step_cases suite _ _ fits with
    ⟨announced, l, number, moved, entered, -, listed, marks, windows, -⟩ | ⟨-, windows, -⟩
  · rw [windows]
    by_cases own : announced = id
    · subst own
      -- The window that moved is the stored one, and it had seen the stream.
      obtain rfl := Option.some.inj (stored.symm.trans (current _ l listed))
      rw [if_pos rfl, stored]
      exact ⟨moved, rfl, ((SeenWindow.of_mark? marks).2.2 stream lt).2 (.inl seen)⟩
    · rw [if_neg own]
      exact ⟨window, stored, seen⟩
  · exact ⟨window, windows id window stored, seen⟩

/-- An announced stream is seen from then on, and it was not announced before. -/
theorem answer_step (current : Current r) (fits : act.Fits r) {id : PeriodId} {stream : Nat}
    (announces : (act.perform suite r).1 = some (id, stream)) :
    ∃ window, r.window? id = some window ∧ window.Covers stream ∧ ¬ window.Seen stream ∧
      (stream < Count.top →
        ∃ window', (act.perform suite r).2.window? id = some window' ∧ window'.Seen stream) := by
  rcases @step_cases suite _ _ fits with
    ⟨id', l, stream', moved, entered, eq, listed, marks, windows, -⟩ | ⟨none, -⟩
  · obtain ⟨rfl, rfl⟩ := Prod.mk.inj (Option.some.inj (announces.symm.trans eq))
    obtain ⟨covers, fresh, seen⟩ := SeenWindow.of_mark? marks
    refine ⟨l.window, current id l listed, covers, fresh, fun lt => ⟨moved, ?_, ?_⟩⟩
    · rw [windows, if_pos rfl, current id l listed, Option.map_some]
    · exact (seen stream lt).2 (.inr rfl)
  · rw [none] at announces
    cases announces

theorem Far.lt_top (far : r.Far) {stream : Nat} (stored : r.window? id = some window)
    (covers : window.Covers stream) : stream < Count.top := by
  obtain ⟨row, kept, rfl⟩ := Option.map_eq_some_iff.1 stored
  have bound := far row (mem_values.2 ⟨id, kept⟩)
  have near := covers.2
  unfold SeenWindow.size at near
  omega

/-- Over one vault, whichever of its calls fail, whatever is listed or taken out and however often the
directory is lost: as long as secrets are listed as they are stored, rows keep their windows, and no
window comes near the greatest count, no stream is announced twice. -/
theorem nodup_answers {vault : GuardedVault} {acts : List Act}
    (fits : ∀ e ∈ log suite acts ⟨vault, .empty⟩, e.act.Fits e.before)
    (far : ∀ e ∈ log suite acts ⟨vault, .empty⟩, e.before.Far) :
    ((log suite acts ⟨vault, .empty⟩).filterMap (·.report)).Nodup := by
  have start : Current ⟨vault, .empty⟩ := by simp [Current]
  have distinct : (log suite acts ⟨vault, .empty⟩).Pairwise fun past e =>
      ∀ answer, past.report = some answer → e.report ≠ some answer := by
    refine (pairwise_log Current Remembers start ?_).2
    intro e mem current
    have fits := fits e mem
    obtain ⟨-, report, after⟩ := of_mem_log mem
    rw [after]
    refine ⟨current.step fits, ?_, fun past remembers => ⟨?_, remembers.step current fits⟩⟩
    · intro id stream announces lt
      obtain ⟨_, -, -, -, seen⟩ := answer_step current fits (report.symm.trans announces)
      exact seen lt
    · rintro ⟨id, stream⟩ made announces
      obtain ⟨window, stored, covers, fresh, -⟩ :=
        answer_step current fits (report.symm.trans announces)
      obtain ⟨window', stored', seen⟩ :=
        remembers id stream made ((far e mem).lt_top stored covers)
      obtain rfl := Option.some.inj (stored.symm.trans stored')
      exact fresh seen
  refine distinct.filterMap _ ?_
  rintro past e differ answer made answer' made' rfl
  exact differ answer made made'

/-- A tag is recognized, the directory is lost, and the secret is listed again as it is stored. -/
theorem nodup_answers_listed_again :
    let s : PeriodSecret := .fresh ⟨⟨1, "tcp"⟩, 0, .alice⟩ 0 .wiped
    let seen : PeriodSecret := { s with incoming := (s.incoming.mark? 0).elim .empty Prod.fst }
    let tag : Bytes := 0 :: 2 :: Bytes.zeros 14
    let vault : GuardedVault := ⟨{ Vault.empty with rows := Vault.put ∅ s }, .clear⟩
    let answers := (log bare [.list s, .recognize tag, .clear, .list seen, .recognize tag]
      ⟨vault, .empty⟩).filterMap (·.report)
    answers = [(s.id, 0)] ∧ answers.Nodup := by
  intro s seen tag vault answers
  exact ⟨by decide +kernel, nodup_answers (by decide +kernel) (by decide +kernel)⟩

end SealedStream.Registry
