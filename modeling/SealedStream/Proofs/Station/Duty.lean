import SealedStream.Proofs.Station.Calls

/-!
# A keyring on duty

A keyring is on duty while it has a listener on the bus and a check on the agenda of its post. Only a start
and a stop change that, and a keyring that goes gives up both. Every other operation works on the
vault, the directory and the held secrets.

## Main definitions

* `Station.Duty`, `Station.duty` — how a keyring stands with its post.

## Main statements

* `Station.duty_perform` — most acts leave the duty as it is.
* `Station.duty_start_cases` — a start that succeeds attaches the keyring.
-/

namespace SealedStream.Station

open Std SealedStream.Action

/-- How a keyring stands with the bus and the agenda of its post. -/
structure Duty where
  settings : Settings
  serial : Nat
  running : Bool
  listener : Option Nat
  task : Option Nat
  bus : Bus Nat
  agenda : Agenda Job

/-- How the keyring stands with its post. -/
def duty (s : Station) : Duty where
  settings := s.keyring.settings
  serial := s.keyring.serial
  running := s.keyring.running
  listener := s.keyring.listener
  task := s.keyring.task
  bus := s.post.bus
  agenda := s.post.agenda

/-- It stands ready: it is told of notices, and its check is on the agenda. -/
def Duty.attached (d : Duty) : Duty :=
  let interval := max d.settings.checkInterval 1
  { d with
    running := true
    listener := some d.bus.nextId
    task := some d.agenda.nextId
    bus := d.bus.add d.serial
    agenda := d.agenda.enter interval (some interval) (.check d.serial) }

/-- It is told of nothing, and its check is off the agenda. -/
def Duty.detached (d : Duty) : Duty :=
  { d with
    running := false
    listener := none
    task := none
    bus := d.listener.elim d.bus fun id => d.bus.remove id
    agenda := d.task.elim d.agenda fun id => d.agenda.cancel id }

variable {suite : Suite} {s t : Station}

theorem preserves_onVault {α : Type} (kind : VaultCall) (act : Vault.Call α) :
    Preserves duty (onVault kind act) :=
  .part fun _ _ => rfl

theorem preserves_now : Preserves duty now := .bind .read fun _ => .give

theorem preserves_persist (r : Rollover) : Preserves duty (persist r) := by
  have remove : Preserves duty
      (if r.retired ≠ [] then onVault .remove (Vault.remove r.retired) else pure ()) :=
    .ite (preserves_onVault _ _) .give
  exact .ite (.bind (preserves_onVault _ _) fun _ => remove) remove

theorem preserves_listSecret (x : PeriodSecret) : Preserves duty (listSecret suite x) :=
  .bind (.part fun _ _ => rfl) fun _ => .change fun _ => rfl

theorem preserves_offer (secrets : List PeriodSecret) : Preserves duty (offer suite secrets) := by
  induction secrets with
  | nil => exact .give
  | cons x secrets ih =>
    refine .bind (fun s r t ends => ?_) fun _ => .bind ih fun _ => .give
    obtain ⟨_, listing, -⟩ := noted_cases ends
    exact preserves_listSecret x _ _ _ listing

theorem preserves_listSecrets (secrets : List PeriodSecret) :
    Preserves duty (listSecrets suite secrets) :=
  .bind (preserves_offer secrets) fun _ => .change fun _ => rfl

theorem preserves_listAll (secrets : List PeriodSecret) :
    Preserves duty (listAll suite secrets) := by
  have listing (secrets : List PeriodSecret) :
      Preserves duty (secrets.forM (listSecret suite)) := by
    induction secrets with
    | nil => exact .give
    | cons x secrets ih => exact .bind (preserves_listSecret x) fun _ => ih
  intro s r t ends
  simp only [Ends, toExcept, listAll] at ends
  cases ended : secrets.forM (listSecret suite) s with
  | ok _ u =>
    rw [ended] at ends
    obtain ⟨rfl, rfl⟩ := Prod.mk.inj ends
    exact listing secrets s (.ok ⟨⟩) u (by simp only [Ends, toExcept, ended])
  | error fault u =>
    rw [ended] at ends
    obtain ⟨rfl, rfl⟩ := Prod.mk.inj ends
    exact listing secrets s (.error fault) u (by simp only [Ends, toExcept, ended])

theorem preserves_enroll (link : Link) (latency : Nat) (handshake : Key) :
    Preserves duty (enroll suite link latency handshake) := by
  unfold enroll
  refine .bind preserves_now fun now => .bind .read fun s => ?_
  dsimp only
  split
  · refine .bind .read fun _ => .bind (preserves_onVault _ _) fun _ => ?_
    refine .ite (.bind (preserves_onVault _ _) fun _ => ?_) ?_
    all_goals
      refine .bind (preserves_onVault _ _) fun _ => .bind (.change fun _ => rfl) fun _ => ?_
      exact .bind (.change fun _ => rfl) fun _ => preserves_listSecrets _
  · exact .fail

theorem preserves_rotate : Preserves duty (rotate suite) := by
  refine .bind .read fun s => .bind preserves_now fun now => .bind .lift fun r => ?_
  refine .bind (.change fun _ => rfl) fun _ => .bind (preserves_persist r) fun _ => ?_
  exact .bind (.change fun _ => rfl) fun _ => .bind (preserves_listSecrets _) fun _ => .give

theorem preserves_issue (pair : Pair) : Preserves duty (issue pair) := by
  unfold issue
  refine .bind .read fun s => ?_
  split
  · refine .bind (preserves_onVault _ _) fun _ => ?_
    split
    · exact .give
    · exact .give
  · exact .give

theorem duty_tryVault (kind : VaultCall) (act : Vault.Call Unit) :
    (tryVault kind act s).duty = s.duty := by
  have same := preserves_onVault kind act s _ _ (ends_toExcept ..)
  unfold tryVault
  simp only [toExcept] at same
  cases ended : onVault kind act s <;> simpa only [ended] using same

theorem duty_react (notice : Notice) : (s.react notice).duty = s.duty := by
  cases notice with
  | contactGone contact => exact duty_tryVault ..
  | transportUp transport latency => rfl
  | transportGone transport => exact duty_tryVault ..

theorem duty_check : (s.check suite).duty = s.duty := by
  have same := (preserves_rotate : Preserves duty (rotate suite)) s _ _ (ends_toExcept ..)
  unfold check
  simp only [toExcept] at same
  split
  · cases ended : rotate suite s <;> simpa only [ended] using same
  · rfl

/-- A start that fails leaves the duty as it is, and one that succeeds attaches the keyring. -/
theorem duty_start_cases {r : Except KeyringFault Unit} (ends : (start suite).Ends s r t) :
    t.duty = s.duty ∧ (∃ fault, r = .error fault) ∨
      s.keyring.running = false ∧ t.duty = s.duty.attached ∧ r = .ok () := by
  simp only [start, ends_get_bind_iff] at ends
  split at ends
  · obtain ⟨rfl, rfl⟩ := ends_throw_bind_iff.1 ends
    exact .inl ⟨rfl, _, rfl⟩
  rename_i idle
  refine (Classical.em _).imp_right fun succeeds => ⟨Bool.eq_false_iff.2 idle, ?_⟩
  have step {α β : Type} {x : Operation α} {f : α → Operation β} {s u t : Station}
      {r : Except KeyringFault β} (first : Preserves duty x) (same : u.duty = s.duty)
      (succeeds : ¬ (t.duty = s.duty ∧ ∃ fault, r = .error fault)) (ends : (x >>= f).Ends u r t) :
      ∃ a v, v.duty = s.duty ∧ (f a).Ends v r t := by
    rcases first.bind_cases ends with ⟨kept, fails⟩ | ⟨a, v, kept, rest⟩
    · exact absurd ⟨kept.trans same, fails⟩ succeeds
    · exact ⟨a, v, kept.trans same, rest⟩
  obtain ⟨secrets, u, same, ends⟩ := step (preserves_onVault _ _) rfl succeeds ends
  obtain ⟨latencies, u, same, ends⟩ := step (preserves_onVault _ _) same succeeds ends
  rw [ends_get_bind_iff] at ends
  obtain ⟨now, u, same, ends⟩ := step preserves_now same succeeds ends
  obtain ⟨r, u, same, ends⟩ := step .lift same succeeds ends
  obtain ⟨_, u, same, ends⟩ := step (preserves_persist r) same succeeds ends
  obtain ⟨_, u, same, ends⟩ := step (preserves_listAll _) same succeeds ends
  rw [ends_modify_bind_iff] at ends
  obtain ⟨rfl, rfl⟩ := ends_modify_iff.1 ends
  rw [← same]
  exact ⟨rfl, rfl⟩

theorem duty_stop : s.stop.duty = if s.keyring.running then s.duty.detached else s.duty := by
  unfold stop
  split <;> rfl

/-- What an act makes of the duty. -/
theorem duty_perform (suite : Suite) (act : Act) (s : Station) :
    let after := (act.perform suite s).2.duty
    match act with
    | .start => after = s.duty ∨ s.keyring.running = false ∧ after = s.duty.attached
    | .stop => after = if s.keyring.running then s.duty.detached else s.duty
    | .replace serial => after = { s.duty.detached with serial }
    | .restart => after = (⟨.stopped s.keyring.settings 0,
        Peer.postAt s.post.vault s.post.agenda.now⟩ : Station).duty
    | _ => after = s.duty := by
  cases act with
  | enroll => exact preserves_enroll _ _ _ _ _ _ (ends_toExcept ..)
  | start => exact (duty_start_cases (ends_toExcept ..)).imp And.left fun ⟨idle, after, _⟩ => ⟨idle, after⟩
  | stop => exact duty_stop
  | rotate => exact preserves_rotate _ _ _ (ends_toExcept ..)
  | check => exact duty_check
  | react notice => exact duty_react notice
  | issue => exact preserves_issue _ _ _ _ (ends_toExcept ..)
  | recognize | replace | restart => rfl

end SealedStream.Station
