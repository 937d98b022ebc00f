import SealedStream.Proofs.Bare
import SealedStream.Proofs.Station.Enrolling

/-!
# What a fault of the vault leaves behind

An operation makes its calls on the vault one after the other. If one of them fails, the operation
stops and reports the fault: the keyring is as before, but what the earlier calls did to the rows is
not undone. A rotation has taken the retired secrets off the directory by then.

## Main definitions

* `Station.Call`, `Station.Act.calls` — a call on the vault, and those that an operation makes.
* `Station.Interrupted` — the first of some calls were made, and the next one failed.
* `Station.Act.fault?` — the fault that an operation reports.

## Main statements

* `Station.interrupted_of_fault` — what an operation leaves that reports a fault of the vault.
* `Station.undone_iff` — when that is all as it was.
-/

namespace SealedStream.Station

open Std SealedStream.Action

/-! ## The calls of an operation -/

/-- A call that an operation makes on the vault. -/
inductive Call where
  /-- Reads the secrets or the latencies. -/
  | read
  | add (secrets : List PeriodSecret)
  | remove (ids : List PeriodId)
  | reserve (id : PeriodId)

namespace Call

/-- The rows after the call. -/
def apply (rows : ExtTreeMap PeriodId PeriodSecret) : Call → ExtTreeMap PeriodId PeriodSecret
  | read => rows
  | add secrets => secrets.foldl Vault.put rows
  | remove ids => ids.foldl (·.erase ·) rows
  | reserve id => (rows[id]?).elim rows fun row =>
      rows.insert id { row with outgoing := row.outgoing + 1 }

/-- The call finds the rows as it would leave them. -/
def Idle (rows : ExtTreeMap PeriodId PeriodSecret) : Call → Prop
  | read => True
  | add secrets => ∀ x ∈ secrets, ∃ row : PeriodSecret, rows[x.id]? = some row ∧ row.key = x.key
  | remove ids => ∀ id ∈ ids, id ∉ rows
  | reserve id => id ∉ rows

end Call

/-- The calls that add secrets and remove others. A call with nothing to do is left out. -/
def writes (added : List PeriodSecret) (removed : List PeriodId) : List Call :=
  (if added ≠ [] then [.add added] else []) ++ if removed ≠ [] then [.remove removed] else []

/-- The rollover of a keyring that starts. -/
def startPlan (suite : Suite) (s : Station) : Except KeyringFault Rollover :=
  Rollover.plan suite s.post.agenda.now s.core.vault.latencies s.core.tolerance
    s.core.vault.rows.values

/-- The rollover of a rotation that goes through the pairs in their own order. -/
def rotatePlan (suite : Suite) (s : Station) : Except KeyringFault Rollover :=
  rotatePlanBy .sorted suite s

/-- The calls that an operation makes on the vault, in order, if none of them fails. -/
def Act.calls (suite : Suite) (act : Act) (s : Station) : List Call :=
  match act with
  | .enroll link latency handshake =>
    (Schedule.periodAt link.epoch (Schedule.interval latency s.core.tolerance)
      s.post.agenda.now).elim [] fun current =>
        let derived := liveSecrets suite link current handshake
        writes derived (staleIds s.keyring link.toPair derived) ++ [.read]
  | .start => [.read, .read] ++
      (startPlan suite s).toOption.elim [] fun r => writes r.created r.retired
  | .rotate => (rotatePlan suite s).toOption.elim [] fun r => writes r.created r.retired
  | .issue pair => ((s.keyring.held[pair]?).bind (·.current)).elim [] fun current =>
      [.reserve ⟨pair, current.period⟩]
  | _ => []

theorem calls_enroll {suite : Suite} {s : Station} {link : Link} {latency current : Nat}
    {handshake : Key} (at_now : Schedule.periodAt link.epoch
      (Schedule.interval latency s.core.tolerance) s.post.agenda.now = some current) :
    (Act.enroll link latency handshake).calls suite s =
      writes (liveSecrets suite link current handshake)
        (staleIds s.keyring link.toPair (liveSecrets suite link current handshake)) ++ [.read] := by
  simp only [Act.calls, at_now, Option.elim_some]

theorem liveSecrets_ne_nil (suite : Suite) (link : Link) (current : Nat) (handshake : Key) :
    liveSecrets suite link current handshake ≠ [] := by simp [liveSecrets]

/-- The secrets that an operation takes off the directory before its calls on the vault. -/
def Act.unlisted (suite : Suite) (act : Act) (s : Station) : List PeriodId :=
  match act with
  | .rotate => (rotatePlan suite s).toOption.elim [] (·.summary.retired)
  | _ => []

theorem mem_unlisted_rotate {suite : Suite} {s : Station} {id : PeriodId} :
    id ∈ Act.rotate.unlisted suite s ↔ id ∈ (rotatePlan suite s).toOption.elim [] (·.retired) := by
  unfold Act.unlisted
  cases (rotatePlan suite s).toOption with
  | none => rfl
  | some r => simp [Rollover.summary, Rollover.sortIds]

/-- The fault that an operation ends with. -/
def faultOf {α : Type} (act : Operation α) (s : Station) : Option KeyringFault :=
  match act s with
  | .ok _ _ => none
  | .error fault _ => some fault

/-- The fault that an act reports. -/
def Act.fault? (suite : Suite) (act : Act) (s : Station) : Option KeyringFault :=
  match act with
  | .enroll link latency handshake => faultOf (Station.enroll suite link latency handshake) s
  | .start => faultOf (Station.start suite) s
  | .rotate => faultOf (Station.rotate suite) s
  | .issue pair => faultOf (Station.issue pair) s
  | _ => none

theorem ends_of_faultOf {α : Type} {act : Operation α} {s : Station} {fault : KeyringFault}
    (h : faultOf act s = some fault) : act.Ends s (.error fault) (act.toExcept s).2 := by
  unfold faultOf at h
  unfold Ends toExcept
  cases ended : act s with
  | ok a t => simp [ended] at h
  | error fault' t =>
    simp only [ended, Option.some.injEq] at h
    rw [h]

/-! ## Calls that were made -/

/-- All the calls were made. -/
structure Made (calls : List Call) (g g' : GuardedVault) : Prop where
  count : g'.gate.calls = g.gate.calls + calls.length
  vault : g'.vault = { g.vault with rows := calls.foldl Call.apply g.vault.rows }

/-- The first `k` calls were made, and the next one failed. -/
structure Interrupted (calls : List Call) (k : Nat) (g g' : GuardedVault) : Prop where
  lt : k < calls.length
  count : g'.gate.calls = g.gate.calls + k + 1
  vault : g'.vault = { g.vault with rows := (calls.take k).foldl Call.apply g.vault.rows }

variable {g g' g'' : GuardedVault} {calls calls' : List Call}

theorem Made.nil : Made [] g g := ⟨rfl, rfl⟩

theorem Interrupted.of_first {call : Call} (count : g'.gate.calls = g.gate.calls + 1)
    (kept : g'.vault = g.vault) : Interrupted [call] 0 g g' :=
  ⟨Nat.one_pos, count, kept⟩

theorem Interrupted.append {k : Nat} (interrupted : Interrupted calls k g g') :
    Interrupted (calls ++ calls') k g g' where
  lt := by
    rw [List.length_append]
    exact Nat.lt_add_right _ interrupted.lt
  count := interrupted.count
  vault := by rw [interrupted.vault, List.take_append_of_le_length interrupted.lt.le]

theorem Made.interrupted {k : Nat} (made : Made calls g g')
    (interrupted : Interrupted calls' k g' g'') :
    Interrupted (calls ++ calls') (calls.length + k) g g'' where
  lt := by
    rw [List.length_append]
    exact Nat.add_lt_add_left interrupted.lt _
  count := by
    rw [interrupted.count, made.count]
    omega
  vault := by
    rw [interrupted.vault, made.vault, List.take_length_add_append, List.foldl_append]

/-! ## One call -/

section Calls

variable {suite : Suite} {s t : Station} {α : Type} {r : Except KeyringFault α} {kind : VaultCall}

theorem calls_onVault {act : Vault.Call α} (h : (onVault kind act).Ends s r t) :
    t.post.vault.gate.calls = s.post.vault.gate.calls + 1 := by
  obtain ⟨r', g, ends, -, rfl⟩ := ends_focus_iff.1 h
  exact GuardedVault.calls_call ends

/-- A call that reads, with something to be done afterwards. -/
theorem onVault_read_bind {β : Type} {f : Vault → β} {next : β → Operation α}
    (h : Ends (onVault kind (do return f (← get)) >>= next) s r t) :
    (∃ g, t = { s with post.vault := g } ∧ (∃ fault, r = .error (.store fault)) ∧
      ∃ k, Interrupted [.read] k s.post.vault g) ∨
    ∃ g, Made [.read] s.post.vault g ∧
      (next (f s.post.vault.vault)).Ends { s with post.vault := g } r t := by
  rcases ends_bind_iff.1 h with ⟨fault, failed, rfl⟩ | ⟨b, u, read, rest⟩
  · have count := calls_onVault failed
    obtain ⟨g, rfl, -, ⟨kept, ⟨_, store⟩, -⟩ | ⟨r', ends, eq⟩⟩ := onVault_cases failed
    · cases store
      exact .inl ⟨g, rfl, ⟨_, rfl⟩, 0, .of_first count kept⟩
    · simp only [ends_get_bind_iff, ends_pure_iff] at ends
      obtain ⟨rfl, -⟩ := ends
      cases eq
  · have count := calls_onVault read
    obtain ⟨g, rfl, -, ⟨-, ⟨_, store⟩, -⟩ | ⟨r', ends, eq⟩⟩ := onVault_cases read
    · cases store
    · simp only [ends_get_bind_iff, ends_pure_iff] at ends
      obtain ⟨rfl, kept⟩ := ends
      cases eq
      exact .inr ⟨g, ⟨count, kept⟩, rest⟩

/-- A call that changes the rows, with something to be done afterwards. -/
theorem onVault_change_bind {f : Vault → Vault} {next : Unit → Operation α} (call : Call)
    (applies : ∀ v, f v = { v with rows := call.apply v.rows })
    (h : Ends (onVault kind (do Vault.demandWritable; modify f) >>= next) s r t) :
    (∃ g, t = { s with post.vault := g } ∧ (∃ fault, r = .error (.store fault)) ∧
      ∃ k, Interrupted [call] k s.post.vault g) ∨
    ∃ g, Made [call] s.post.vault g ∧ (next ()).Ends { s with post.vault := g } r t := by
  rcases ends_bind_iff.1 h with ⟨fault, failed, rfl⟩ | ⟨_, u, changed, rest⟩
  · have count := calls_onVault failed
    obtain ⟨g, rfl, -, ⟨kept, ⟨_, store⟩, -⟩ | ⟨-, ok⟩⟩ := onVault_change_cases failed
    · cases store
      exact .inl ⟨g, rfl, ⟨_, rfl⟩, 0, .of_first count kept⟩
    · cases ok
  · have count := calls_onVault changed
    obtain ⟨g, rfl, -, ⟨-, ⟨_, store⟩, -⟩ | ⟨change, -⟩⟩ := onVault_change_cases changed
    · cases store
    · exact .inr ⟨g, ⟨count, change.trans (applies _)⟩, rest⟩

/-- The same for a call that may be left out. -/
theorem onVault_change_when_bind {needed : Prop} [Decidable needed] {f : Vault → Vault}
    {next : Unit → Operation α} (call : Call)
    (applies : ∀ v, f v = { v with rows := call.apply v.rows })
    (h : Ends (if needed then onVault kind (do Vault.demandWritable; modify f) >>= next
      else next ()) s r t) :
    (∃ g, t = { s with post.vault := g } ∧ (∃ fault, r = .error (.store fault)) ∧
      ∃ k, Interrupted (if needed then [call] else []) k s.post.vault g) ∨
    ∃ g, Made (if needed then [call] else []) s.post.vault g ∧
      (next ()).Ends { s with post.vault := g } r t := by
  by_cases need : needed
  · rw [if_pos need] at h
    simp only [if_pos need]
    exact onVault_change_bind call applies h
  · rw [if_neg need] at h
    simp only [if_neg need]
    exact .inr ⟨s.post.vault, .nil, h⟩

/-- Storing a rollover stops at a call that fails, or makes all of them. -/
theorem persist_ends {rollover : Rollover} {r : Except KeyringFault Unit}
    (h : (persist rollover).Ends s r t) :
    (∃ g, t = { s with post.vault := g } ∧ (∃ fault, r = .error (.store fault)) ∧
      ∃ k, Interrupted (writes rollover.created rollover.retired) k s.post.vault g) ∨ r = .ok () := by
  unfold persist at h
  rcases onVault_change_when_bind (.add rollover.created) (fun _ => rfl) h with
    ⟨g, rfl, fails, k, stopped⟩ | ⟨g, added, rest⟩
  · exact .inl ⟨g, rfl, fails, k, stopped.append⟩
  rw [← bind_pure (onVault .remove _)] at rest
  rcases onVault_change_when_bind (.remove rollover.retired) (fun _ => rfl) rest with
    ⟨g', rfl, fails, k, stopped⟩ | ⟨g', -, rest⟩
  · exact .inl ⟨g', rfl, fails, _, added.interrupted stopped⟩
  · exact .inr (ends_pure_iff.1 rest).1

end Calls

/-! ## One operation -/

section Operations

variable {suite : Suite} {s t : Station} {fault : StoreFault}

theorem enroll_interrupted {link : Link} {latency : Nat} {handshake : Key}
    (h : (enroll suite link latency handshake).Ends s (.error (.store fault)) t) :
    ∃ g, t = { s with post.vault := g } ∧
      ∃ k, Interrupted ((Act.enroll link latency handshake).calls suite s) k s.post.vault g := by
  simp only [enroll, ends_now_bind_iff, ends_get_bind_iff] at h
  cases at_now : Schedule.periodAt link.epoch
      (Schedule.interval latency s.keyring.settings.tolerance) s.post.agenda.now with
  | none => simp [at_now] at h
  | some current =>
    simp only [at_now, ends_get_bind_iff] at h
    rw [calls_enroll at_now, writes, if_pos (liveSecrets_ne_nil _ _ _ _), List.append_assoc]
    generalize liveSecrets suite link current handshake = derived at h ⊢
    generalize staleIds s.keyring link.toPair derived = stale at h ⊢
    rcases onVault_change_bind (.add derived) (fun _ => rfl) h with
      ⟨g, rfl, -, k, stopped⟩ | ⟨g, added, rest⟩
    · exact ⟨g, rfl, _, stopped.append⟩
    rcases onVault_change_when_bind (.remove stale) (fun _ => rfl) rest with
      ⟨g', rfl, -, k, stopped⟩ | ⟨g', removed, rest⟩
    · exact ⟨g', rfl, _, added.interrupted stopped.append⟩
    rcases onVault_read_bind rest with ⟨g'', rfl, -, k, stopped⟩ | ⟨g'', -, rest⟩
    · exact ⟨g'', rfl, _, added.interrupted (removed.interrupted stopped)⟩
    · simp only [ends_onKeyring_bind_iff, ends_onDirectory_bind_iff] at rest
      cases (listSecrets_cases rest).1

theorem start_interrupted (h : (start suite).Ends s (.error (.store fault)) t) :
    ∃ g, t = { s with post.vault := g } ∧
      ∃ k, Interrupted (Act.start.calls suite s) k s.post.vault g := by
  simp only [start, ends_get_bind_iff] at h
  split at h
  · simp at h
  rw [show Act.start.calls suite s = [.read] ++ ([.read] ++
    (startPlan suite s).toOption.elim [] fun r => writes r.created r.retired) from rfl]
  rcases onVault_read_bind h with ⟨g, rfl, -, k, stopped⟩ | ⟨g, read, rest⟩
  · exact ⟨g, rfl, _, stopped.append⟩
  rcases onVault_read_bind rest with ⟨g', rfl, -, k, stopped⟩ | ⟨g', read', rest⟩
  · exact ⟨g', rfl, _, read.interrupted stopped.append⟩
  simp only [ends_get_bind_iff, ends_now_bind_iff, read.vault] at rest
  rcases ends_ofExcept_bind_iff.1 rest with ⟨_, fails, eq, -⟩ | ⟨r, plans, rest⟩
  · obtain ⟨_, -, _, -, -, rfl⟩ := Rollover.of_planBy_eq_error fails
    cases eq
  rw [show startPlan suite s = .ok r from plans]
  rcases ends_bind_iff.1 rest with ⟨_, storing, -⟩ | ⟨_, u, -, rest⟩
  · rcases persist_ends storing with ⟨g'', rfl, -, k, stopped⟩ | ok
    · exact ⟨g'', rfl, _, read.interrupted (read'.interrupted stopped)⟩
    · cases ok
  rcases ends_bind_iff.1 rest with ⟨_, listing, eq⟩ | ⟨_, v, -, rest⟩
  · rcases listAll_cases listing with ⟨ok, -⟩ | ⟨⟨_, crypto⟩, -⟩
    · cases ok
    · cases crypto
      cases eq
  · rw [ends_modify_bind_iff] at rest
    cases (ends_modify_iff.1 rest).1

theorem rotateBy_interrupted {rounds : Rounds}
    (h : (rotateBy rounds suite).Ends s (.error (.store fault)) t) :
    ∃ r, rotatePlanBy rounds suite s = .ok r ∧
      ∃ g, t = { s with
          post.vault := g
          post.directory := unlistAllIn r.summary.retired s.post.directory } ∧
        ∃ k, Interrupted (writes r.created r.retired) k s.post.vault g := by
  rcases ends_rotateBy_iff.1 h with ⟨_, fails, eq, -⟩ | ⟨r, plans, rest⟩
  · obtain ⟨_, -, _, -, -, rfl⟩ := Rollover.of_planBy_eq_error fails
    cases eq
  refine ⟨r, plans, ?_⟩
  rcases ends_bind_iff.1 rest with ⟨_, storing, -⟩ | ⟨_, u, -, concludes⟩
  · rcases persist_ends storing with ⟨g, rfl, -, k, stopped⟩ | ok
    · exact ⟨g, rfl, _, stopped⟩
    · cases ok
  · cases conclude_cases concludes

theorem rotate_interrupted (h : (rotate suite).Ends s (.error (.store fault)) t) :
    ∃ g, t = { s with
        post.vault := g
        post.directory := unlistAllIn (Act.rotate.unlisted suite s) s.post.directory } ∧
      ∃ k, Interrupted (Act.rotate.calls suite s) k s.post.vault g := by
  obtain ⟨r, plans, reached⟩ := rotateBy_interrupted h
  unfold Act.calls Act.unlisted
  rw [show rotatePlan suite s = .ok r from plans]
  exact reached

theorem issue_interrupted {pair : Pair} (h : (issue pair).Ends s (.error (.store fault)) t) :
    ∃ g, t = { s with post.vault := g } ∧
      ∃ k, Interrupted ((Act.issue pair).calls suite s) k s.post.vault g := by
  simp only [issue, ends_get_bind_iff] at h
  cases held : (s.keyring.held[pair]?).bind (·.current) with
  | none => simp [held] at h
  | some current =>
    simp only [held] at h
    simp only [Act.calls, held, Option.elim_some]
    rcases ends_bind_iff.1 h with ⟨_, failed, -⟩ | ⟨stream, u, -, rest⟩
    · have count := calls_onVault failed
      obtain ⟨g, rfl, -, ⟨kept, -⟩ | ⟨r', ends, eq⟩⟩ := onVault_cases failed
      · exact ⟨g, rfl, _, .of_first count kept⟩
      · rcases Vault.reserve_cases ends with ⟨kept, -⟩ | ⟨row, -, rfl, -⟩
        · exact ⟨g, rfl, _, .of_first count kept⟩
        · cases eq
    · cases stream with
      | none => simp at rest
      | some number => simp at rest

/-- An operation that reports a fault of the vault was interrupted in its calls. The keyring is as
before, and of the directory only what a rotation retires is gone. -/
theorem interrupted_of_fault {act : Act} (failed : act.fault? suite s = some (.store fault)) :
    let t := (act.perform suite s).2
    (∃ k, Interrupted (act.calls suite s) k s.post.vault t.post.vault) ∧ t.keyring = s.keyring ∧
      t.post.directory = unlistAllIn (act.unlisted suite s) s.post.directory := by
  have kept : (∃ g, (act.perform suite s).2 = { s with post.vault := g } ∧
        ∃ k, Interrupted (act.calls suite s) k s.post.vault g) →
      act.unlisted suite s = [] →
      (∃ k, Interrupted (act.calls suite s) k s.post.vault (act.perform suite s).2.post.vault) ∧
        (act.perform suite s).2.keyring = s.keyring ∧
        (act.perform suite s).2.post.directory =
          unlistAllIn (act.unlisted suite s) s.post.directory := by
    rintro ⟨g, reached, stopped⟩ nothing
    rw [reached, nothing]
    exact ⟨stopped, rfl, rfl⟩
  cases act with
  | enroll link latency handshake => exact kept (enroll_interrupted (ends_of_faultOf failed)) rfl
  | start => exact kept (start_interrupted (ends_of_faultOf failed)) rfl
  | issue pair => exact kept (issue_interrupted (ends_of_faultOf failed)) rfl
  | rotate =>
    obtain ⟨g, reached, stopped⟩ := rotate_interrupted (ends_of_faultOf failed)
    rw [show (Act.rotate.perform suite s).2 = _ from reached]
    exact ⟨stopped, rfl, rfl⟩
  | stop | check | react | recognize | replace | restart => cases failed

/-- A rotation that is interrupted has taken off the directory what it retires. -/
theorem directory_ne_of_fault {now : Nat} {id : PeriodId}
    (failed : Act.rotate.fault? suite (s.atTime now) = some (.store fault))
    (retired : id ∈ (rotatePlan suite (s.atTime now)).toOption.elim [] (·.retired))
    (listed : id ∈ s.post.directory.listings) :
    (s.perform suite now .rotate).2.post.directory ≠ s.post.directory := by
  intro same
  have unlisted := (interrupted_of_fault failed).2.2.symm.trans same
  exact Directory.removeAll_eq_self_iff.1 unlisted id (mem_unlisted_rotate.2 retired) listed

end Operations

/-! ## What the rows tell -/

section Rows

variable {rows : ExtTreeMap PeriodId PeriodSecret} {added : List PeriodSecret}
  {removed : List PeriodId}

/-- Wherever the calls are interrupted, the rows are as before only if each call that was made found
them as it would leave them. -/
def Telling (rows : ExtTreeMap PeriodId PeriodSecret) (calls : List Call) : Prop :=
  ∀ k < calls.length, (calls.take k).foldl Call.apply rows = rows ↔
    ∀ call ∈ calls.take k, call.Idle rows

theorem telling_nil : Telling rows [] := by simp [Telling]

theorem telling_singleton (call : Call) : Telling rows [call] := by simp [Telling]

theorem telling_cons_read {calls : List Call} (telling : Telling rows calls) :
    Telling rows (.read :: calls) := by
  intro k lt
  cases k with
  | zero => simp
  | succ k =>
    rw [List.take_succ_cons, List.foldl_cons, List.forall_mem_cons]
    exact (telling k (Nat.lt_of_succ_lt_succ lt)).trans (and_iff_right trivial).symm

variable (fresh : ∀ x ∈ added, x.outgoing = 0)
  (agree : ∀ x ∈ added, ∀ y ∈ added, x.id = y.id → x.key = y.key)
include fresh agree

theorem idle_add_iff : Call.apply rows (.add added) = rows ↔ Call.Idle rows (.add added) :=
  Vault.putAll_eq_self_iff fresh agree

theorem idle_add_remove_iff (apart : ∀ x ∈ added, x.id ∉ removed) :
    Call.apply (Call.apply rows (.add added)) (.remove removed) = rows ↔
      Call.Idle rows (.add added) ∧ Call.Idle rows (.remove removed) := by
  constructor
  · intro same
    have stored : Call.Idle rows (.add added) := by
      intro x mem
      rw [← same]
      simp only [Call.apply, Vault.getElem?_eraseAll, if_neg (apart x mem)]
      exact Vault.key_putAll agree mem
    rw [(idle_add_iff fresh agree).2 stored] at same
    exact ⟨stored, Vault.eraseAll_eq_self_iff.1 same⟩
  · rintro ⟨stored, absent⟩
    rw [(idle_add_iff fresh agree).2 stored]
    exact Vault.eraseAll_eq_self_iff.2 absent

theorem telling_add_cons (call : Call) : Telling rows [.add added, call] := by
  intro k lt
  match k, lt with
  | 0, _ => simp
  | 1, _ => simpa using idle_add_iff fresh agree

/-- Before the rows are read, they tell of both changes if nothing is removed that was added. -/
theorem telling_enrolling (apart : ∀ x ∈ added, x.id ∉ removed) :
    Telling rows [.add added, .remove removed, .read] := by
  intro k lt
  match k, lt with
  | 0, _ => simp
  | 1, _ => simpa using idle_add_iff fresh agree
  | 2, _ => simpa using idle_add_remove_iff fresh agree apart

theorem telling_writes : Telling rows (writes added removed) := by
  unfold writes
  split <;> split
  · exact telling_add_cons fresh agree _
  · exact telling_singleton _
  · exact telling_singleton _
  · exact telling_nil

end Rows

theorem telling_calls {suite : Suite} (act : Act) (s : Station)
    (rows : ExtTreeMap PeriodId PeriodSecret) : Telling rows (act.calls suite s) := by
  have rollover (planned : Except KeyringFault Rollover)
      (fresh : ∀ r, planned = .ok r → ∀ x ∈ r.created, ∃ link period key, x = .fresh link period key)
      (agree : ∀ r, planned = .ok r → ∀ x ∈ r.created, ∀ y ∈ r.created, x.id = y.id → x = y) :
      Telling rows (planned.toOption.elim [] fun r => writes r.created r.retired) := by
    cases planned with
    | error fault => exact telling_nil
    | ok r =>
      refine telling_writes (fun x mem => ?_) fun x mem y mem' same => ?_
      · obtain ⟨link, period, key, rfl⟩ := fresh r rfl x mem
        rfl
      · rw [agree r rfl x mem y mem' same]
  cases act with
  | enroll link latency handshake =>
    cases at_now : Schedule.periodAt link.epoch (Schedule.interval latency s.core.tolerance)
        s.post.agenda.now with
    | none =>
      simp only [Act.calls, at_now]
      exact telling_nil
    | some current =>
      have pos := Schedule.pos_of_periodAt at_now
      rw [calls_enroll at_now, writes, if_pos (liveSecrets_ne_nil _ _ _ _)]
      have fresh : ∀ x ∈ liveSecrets suite link current handshake, x.outgoing = 0 := by
        intro x mem
        obtain ⟨period, -, rfl⟩ := (mem_liveSecrets pos).1 mem
        rfl
      have agree : ∀ x ∈ liveSecrets suite link current handshake,
          ∀ y ∈ liveSecrets suite link current handshake, x.id = y.id → x.key = y.key := by
        intro x mem y mem' same
        obtain ⟨period, -, rfl⟩ := (mem_liveSecrets pos).1 mem
        obtain ⟨period', -, rfl⟩ := (mem_liveSecrets pos).1 mem'
        obtain ⟨-, rfl⟩ := PeriodId.mk.inj same
        rfl
      split
      · refine telling_enrolling fresh agree ?_
        intro x mem stale
        exact (mem_staleIds.1 stale).2 x mem rfl
      · exact telling_add_cons fresh agree _
  | start =>
    refine telling_cons_read (telling_cons_read (rollover _ ?_ ?_))
    · exact fun r plans x mem => Rollover.fresh_of_mem_created plans mem
    · exact fun r plans x mem y mem' same => Rollover.eq_of_mem_created plans mem mem' same
  | rotate =>
    refine rollover _ ?_ ?_
    · exact fun r plans x mem => Rollover.fresh_of_mem_created plans mem
    · exact fun r plans x mem y mem' same => Rollover.eq_of_mem_created plans mem mem' same
  | issue pair =>
    simp only [Act.calls]
    cases (s.keyring.held[pair]?).bind (·.current) with
    | none => exact telling_nil
    | some current => exact telling_singleton _
  | stop | check | react | recognize | replace | restart => exact telling_nil

/-- Whatever the station is and whichever calls fail: an operation that reports a fault of the vault
has made the first of its calls, as many as the gate has counted but for the one that failed. The
keyring is as before, and so are the latencies of the vault. The rows are as before exactly if each
call that was made found them as it would leave them, and the directory exactly if a rotation
retires nothing that was listed. -/
theorem undone_iff {suite : Suite} {now : Nat} {act : Act} {s : Station} {fault : StoreFault}
    (failed : act.fault? suite (s.atTime now) = some (.store fault)) :
    let t := (s.perform suite now act).2
    let calls := act.calls suite (s.atTime now)
    let rows := s.post.vault.vault.rows
    ∃ k < calls.length, t.post.vault.gate.calls = s.post.vault.gate.calls + k + 1 ∧
      t.keyring = s.keyring ∧
      t.post.vault.vault =
        { s.post.vault.vault with rows := (calls.take k).foldl Call.apply rows } ∧
      (t.post.vault.vault.rows = rows ↔ ∀ call ∈ calls.take k, call.Idle rows) ∧
      (t.post.directory = s.post.directory ↔
        ∀ id ∈ act.unlisted suite (s.atTime now), id ∉ s.post.directory.listings) := by
  intro t calls rows
  obtain ⟨⟨k, interrupted⟩, keyring, directory⟩ := interrupted_of_fault failed
  have vault : t.post.vault.vault = _ := interrupted.vault
  refine ⟨k, interrupted.lt, interrupted.count, keyring, vault, ?_, ?_⟩
  · rw [vault]
    exact telling_calls act (s.atTime now) rows k interrupted.lt
  · rw [show t.post.directory = _ from directory]
    exact Directory.removeAll_eq_self_iff

/-- A link is enrolled, but its secrets cannot be read back: they are stored and not held. -/
theorem undone_unread :
    let refusal (call : Nat) (_ : VaultCall) := if call = 3 then some (.backend "full") else none
    let s := run bare [(0, .start)]
      ⟨.stopped .standard 0, Peer.postAt ⟨.setLatency "tcp" 20 .empty, ⟨0, refusal⟩⟩ 0⟩
    let act := Act.enroll ⟨⟨1, "tcp"⟩, 0, .alice⟩ 20 .wiped
    let t := (s.perform bare 1000 act).2
    let calls := act.calls bare (s.atTime 1000)
    act.fault? bare (s.atTime 1000) = some (.store (.backend "full")) ∧
      ∃ k < calls.length, t.post.vault.gate.calls = s.post.vault.gate.calls + k + 1 ∧
        t.keyring = s.keyring ∧
        (t.post.vault.vault.rows = s.post.vault.vault.rows ↔
          ∀ call ∈ calls.take k, call.Idle s.post.vault.vault.rows) ∧
        (t.post.directory = s.post.directory ↔
          ∀ id ∈ act.unlisted bare (s.atTime 1000), id ∉ s.post.directory.listings) := by
  intro refusal s act t calls
  have failed : act.fault? bare (s.atTime 1000) = some (.store (.backend "full")) := by
    decide +kernel
  obtain ⟨k, lt, count, keyring, -, rows, directory⟩ := undone_iff failed
  exact ⟨failed, k, lt, count, keyring, rows, directory⟩

/-- A rotation stores the secrets of the new periods, but cannot remove those of the old ones: the
new rows stay, and the directory has lost the old secrets, which are still held. -/
theorem not_undone_unremoved :
    let refusal (call : Nat) (_ : VaultCall) := if call = 5 then some (.backend "full") else none
    let s := run bare [(0, .start), (1000, .enroll ⟨⟨1, "tcp"⟩, 0, .alice⟩ 20 .wiped)]
      ⟨.stopped .standard 0, Peer.postAt ⟨.setLatency "tcp" 20 .empty, ⟨0, refusal⟩⟩ 0⟩
    let t := (s.perform bare 15000000 .rotate).2
    Act.rotate.fault? bare (s.atTime 15000000) = some (.store (.backend "full")) ∧
      t.post.vault.vault.rows ≠ s.post.vault.vault.rows ∧ t.post.directory ≠ s.post.directory := by
  intro refusal s t
  have failed : Act.rotate.fault? bare (s.atTime 15000000) = some (.store (.backend "full")) := by
    decide +kernel
  have derived : ⟨⟨1, "tcp"⟩, 5⟩ ∈ t.post.vault.vault.rows ∧
      ⟨⟨1, "tcp"⟩, 5⟩ ∉ s.post.vault.vault.rows := by
    decide +kernel
  have retired :
      ⟨⟨1, "tcp"⟩, 0⟩ ∈ (rotatePlan bare (s.atTime 15000000)).toOption.elim [] (·.retired) ∧
        ⟨⟨1, "tcp"⟩, 0⟩ ∈ s.post.directory.listings := by
    decide +kernel
  -- What follows is about any station, so the run need not be carried out.
  clear_value s
  refine ⟨failed, fun same => derived.2 ?_, directory_ne_of_fault failed retired.1 retired.2⟩
  rw [← same]
  exact derived.1

end SealedStream.Station
