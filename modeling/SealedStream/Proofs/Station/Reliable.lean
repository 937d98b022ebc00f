import SealedStream.Proofs.Station.Faults
import SealedStream.Proofs.Station.Leftovers

/-!
# Operations that nothing stands in the way of

With a reliable vault and a directory that takes all secrets, a start and a rotation fail only if the
clock is blamed, and a link is enrolled from its epoch on.

## Main definitions

* `Station.Core.Smooth` — no call on the vault fails, and no secret is refused.

## Main statements

* `Station.enroll_of_smooth`, `Station.start_of_smooth`, `Station.rotate_of_smooth` — operations that
  succeed.
-/

namespace SealedStream.Station

open Std SealedStream.Action

/-- No call on the vault fails, and the directory refuses no secret. -/
structure Core.Smooth (c : Core) : Prop where
  reliable : c.Reliable
  willing : c.Willing

variable {suite : Suite} {s t : Station}

theorem Core.Smooth.effect {now : Nat} {act : Act} {report : Report} {c : Core}
    (smooth : s.core.Smooth) (effect : Effect suite now s act report c) : c.Smooth :=
  ⟨effect.reliable smooth.reliable, effect.willing smooth.willing⟩

/-- What the vault holds does not matter. -/
theorem Core.Smooth.setVault {g : GuardedVault} (smooth : s.core.Smooth)
    (gate : g.gate.verdict = s.post.vault.gate.verdict)
    (writable : g.vault.writable = s.post.vault.vault.writable) :
    (core { s with post.vault := g }).Smooth := by
  rw [core_setVault gate]
  exact ⟨⟨writable.trans smooth.reliable.1, smooth.reliable.2⟩, smooth.willing⟩

/-! ## The parts of an operation -/

/-- A part of an operation does not fail, and leaves a smooth station smooth. -/
abbrev Sure {α : Type} (act : Operation α) : Prop := Succeeds (fun s => s.core.Smooth) act

theorem sure_secrets : Sure (onVault .secrets Vault.secrets) := by
  intro s r t smooth ends
  obtain ⟨g, rfl, gate, same, ⟨-, unreliable⟩ | ok⟩ := onVault_secrets_cases ends
  · exact absurd smooth.reliable unreliable
  · exact ⟨smooth.setVault gate (by rw [same]), _, ok⟩

theorem sure_transports : Sure (onVault .transports Vault.transports) := by
  intro s r t smooth ends
  obtain ⟨g, rfl, gate, same, ⟨-, unreliable⟩ | ok⟩ := onVault_transports_cases ends
  · exact absurd smooth.reliable unreliable
  · exact ⟨smooth.setVault gate (by rw [same]), _, ok⟩

theorem sure_add (secrets : List PeriodSecret) : Sure (onVault .add (Vault.add secrets)) := by
  intro s r t smooth ends
  obtain ⟨g, rfl, gate, ⟨-, -, unreliable⟩ | ⟨change, ok⟩⟩ := onVault_change_cases ends
  · exact absurd smooth.reliable unreliable
  · exact ⟨smooth.setVault gate (by rw [change]), _, ok⟩

theorem sure_remove (ids : List PeriodId) : Sure (onVault .remove (Vault.remove ids)) := by
  intro s r t smooth ends
  obtain ⟨g, rfl, gate, ⟨-, -, unreliable⟩ | ⟨change, ok⟩⟩ := onVault_change_cases ends
  · exact absurd smooth.reliable unreliable
  · exact ⟨smooth.setVault gate (by rw [change]), _, ok⟩

theorem sure_persist (r : Rollover) : Sure (persist r) := by
  have remove : Sure
      (if r.retired ≠ [] then onVault .remove (Vault.remove r.retired) else pure ()) :=
    .ite (sure_remove _) .give
  exact .ite (.bind (sure_add _) fun _ => remove) remove

theorem sure_listSecrets (secrets : List PeriodSecret) : Sure (listSecrets suite secrets) := by
  intro s r t smooth ends
  obtain ⟨ok, _, _, -, same⟩ := listSecrets_cases ends
  refine ⟨?_, _, ok⟩
  dsimp only
  rw [same]
  exact ⟨smooth.reliable, smooth.willing⟩

theorem sure_listAll (secrets : List PeriodSecret) : Sure (listAll suite secrets) := by
  intro s r t smooth ends
  rcases listAll_cases ends with ⟨ok, relisted⟩ | ⟨-, -, unwilling⟩
  · refine ⟨?_, _, ok⟩
    dsimp only
    rw [relisted.core_eq]
    exact ⟨smooth.reliable, smooth.willing⟩
  · exact absurd smooth.willing unwilling

/-! ## The operations -/

/-- From its epoch on, a link is enrolled. -/
theorem enroll_of_smooth {link : Link} {latency current : Nat} {handshake : Key}
    {r : Except KeyringFault Unit} (ends : (enroll suite link latency handshake).Ends s r t)
    (smooth : s.core.Smooth) (at_now : Schedule.periodAt link.epoch
      (Schedule.interval latency s.core.tolerance) s.post.agenda.now = some current) :
    r = .ok () := by
  replace at_now : Schedule.periodAt link.epoch
    (Schedule.interval latency s.keyring.settings.tolerance) s.post.agenda.now = some current := at_now
  simp only [enroll, ends_now_bind_iff, ends_get_bind_iff, at_now] at ends
  suffices sure : Sure _ from (sure _ _ _ smooth ends).2.elim fun _ ok => ok
  refine .bind (sure_add _) fun _ => .ite (.bind (sure_remove _) fun _ => ?_) ?_
  all_goals
    refine .bind sure_secrets fun _ => .bind (.change ?_) fun _ => .bind (.change ?_) fun _ =>
      sure_listSecrets _
    · exact fun s smooth => ⟨smooth.reliable, smooth.willing⟩
    · exact fun s smooth => ⟨smooth.reliable, smooth.willing⟩

/-- A rotation succeeds if its rollover does. -/
theorem rotate_of_smooth {r : Except KeyringFault Rollover.Summary}
    (ends : (rotate suite).Ends s r t) (smooth : s.core.Smooth) {rollover : Rollover}
    (plans : rotatePlan suite s = .ok rollover) : ∃ summary, r = .ok summary := by
  rcases ends_rotateBy_iff.1 ends with ⟨_, fails, -⟩ | ⟨r', -, rest⟩
  · cases plans.symm.trans fails
  rcases ends_bind_iff.1 rest with ⟨_, fails, -⟩ | ⟨_, u, -, concludes⟩
  · have smooth' : (core { s with
        post.directory := unlistAllIn r'.summary.retired s.post.directory }).Smooth :=
      ⟨smooth.reliable, smooth.willing⟩
    obtain ⟨-, _, ok⟩ := sure_persist _ _ _ _ smooth' fails
    cases ok
  · exact ⟨_, conclude_cases concludes⟩

/-- So does a check of a running keyring. -/
theorem check_of_smooth (smooth : s.core.Smooth) (running : s.keyring.running = true)
    {rollover : Rollover} (plans : rotatePlan suite s = .ok rollover) :
    Effect suite s.post.agenda.now s .rotate .done (s.check suite).core := by
  have ends := ends_toExcept (rotate suite) s
  obtain ⟨summary, ok⟩ := rotate_of_smooth ends smooth plans
  rw [ok] at ends
  rw [check_eq running]
  exact effect_rotate (.inr rfl) (.inl rfl) ends

/-- A start succeeds if its rollover does. -/
theorem start_of_smooth {r : Except KeyringFault Unit} (ends : (start suite).Ends s r t)
    (smooth : s.core.Smooth) (idle : s.keyring.running = false) {rollover : Rollover}
    (plans : startPlan suite s = .ok rollover) : r = .ok () := by
  simp only [start, ends_get_bind_iff, idle, Bool.false_eq_true, if_false] at ends
  obtain ⟨secrets, u, smooth, loaded, ends⟩ := sure_secrets.of_bind smooth ends
  obtain ⟨g, rfl, -, same, ⟨⟨_, fails⟩, -⟩ | all⟩ := onVault_secrets_cases loaded
  · cases fails
  cases all
  obtain ⟨latencies, u, smooth, loaded', ends⟩ := sure_transports.of_bind smooth ends
  obtain ⟨g', rfl, -, same', ⟨⟨_, fails⟩, -⟩ | all⟩ := onVault_transports_cases loaded'
  · cases fails
  cases all
  simp only [ends_get_bind_iff, ends_now_bind_iff, same] at ends
  rcases ends_ofExcept_bind_iff.1 ends with ⟨_, fails, -⟩ | ⟨r', -, rest⟩
  · cases plans.symm.trans fails
  suffices sure : Sure _ from (sure _ _ _ smooth rest).2.elim fun _ ok => ok
  refine .bind (sure_persist r') fun _ => .bind (sure_listAll _) fun _ => .bind (.change ?_) fun _ =>
    .change ?_
  · exact fun s smooth => ⟨smooth.reliable, smooth.willing⟩
  · exact fun s smooth => ⟨smooth.reliable, smooth.willing⟩

end SealedStream.Station
