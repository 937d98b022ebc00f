import SealedStream.Proofs.Station.Calls

/-!
# What an act can do

Every act of a keyring, with every way in which it can fail, changes the vault, the held secrets and
the directory in one of a few ways. All that is later said of runs rests on this list.

## Main definitions

* `Station.Effect` — what an act can report and leave behind.

## Main statements

* `Station.effect_perform` — the list is complete.
-/

namespace SealedStream.Station

open Std SealedStream.Action

/-- The secrets held after a rollover that wait to be listed. -/
def pending (r : Rollover) (unlisted : ExtTreeSet PeriodId) : List PeriodSecret :=
  (r.held.values.flatMap Trio.secrets).filter fun s => s.id ∈ unlisted

/-- What an act can report, and what it can leave behind. -/
inductive Effect (suite : Suite) (now : Nat) (s : Station) : Act → Report → Core → Prop
  /-- Any act may fail before it changes anything. -/
  | kept (act : Act) : Effect suite now s act .nothing s.core
  /-- The secrets of a link are stored, but not held. -/
  | enrolling {link : Link} {latency current : Nat} {handshake : Key}
      {rows : ExtTreeMap PeriodId PeriodSecret}
      (at_now : Schedule.periodAt link.epoch (Schedule.interval latency s.core.tolerance) now =
        some current)
      (reached :
        let derived := liveSecrets suite link current handshake
        let added := derived.foldl Vault.put s.core.vault.rows
        rows = added ∨ rows = (staleIds s.keyring link.toPair derived).foldl (·.erase ·) added)
      (unreliable : ¬ s.core.Reliable) :
      Effect suite now s (.enroll link latency handshake) .nothing
        { s.core with vault.rows := rows }
  | enrolled {link : Link} {latency current : Nat} {handshake : Key}
      {rows : ExtTreeMap PeriodId PeriodSecret} {taken refused : List PeriodSecret}
      (at_now : Schedule.periodAt link.epoch (Schedule.interval latency s.core.tolerance) now =
        some current)
      (reached :
        let derived := liveSecrets suite link current handshake
        rows = (staleIds s.keyring link.toPair derived).foldl (·.erase ·)
          (derived.foldl Vault.put s.core.vault.rows))
      (offered : Offered s.core
        ((liveSecrets suite link current handshake).map (storedForm rows.values)) taken refused) :
      Effect suite now s (.enroll link latency handshake) .done
        { s.core with
          vault.rows := rows
          latencies := s.core.latencies.insert link.transport latency
          held := s.core.held.insert link.toPair
            (trioOf ((liveSecrets suite link current handshake).map (storedForm rows.values)))
          directory := listAllIn suite taken
            (unlistAllIn (staleIds s.keyring link.toPair (liveSecrets suite link current handshake))
              s.core.directory)
          unlisted := waiting taken refused s.core.unlisted }
  /-- What the stored secrets lack is derived and stored, but nothing is held. -/
  | starting {r : Rollover}
      (plans : Rollover.plan suite now s.core.vault.latencies s.core.tolerance
        s.core.vault.rows.values = .ok r)
      (unreliable : ¬ s.core.Reliable) :
      Effect suite now s .start .nothing
        { s.core with vault.rows := stored r s.core.vault.rows }
  | startRefused {r : Rollover}
      (plans : Rollover.plan suite now s.core.vault.latencies s.core.tolerance
        s.core.vault.rows.values = .ok r)
      (unwilling : ¬ s.core.Willing) :
      Effect suite now s .start .nothing
        { s.core with vault.rows := persisted r s.core.vault.rows, directory := .empty }
  | started {r : Rollover}
      (plans : Rollover.plan suite now s.core.vault.latencies s.core.tolerance
        s.core.vault.rows.values = .ok r) :
      Effect suite now s .start .done
        { s.core with
          vault.rows := persisted r s.core.vault.rows
          latencies := s.core.vault.latencies
          held := r.held
          directory := listAllIn suite (r.held.values.flatMap Trio.secrets) s.core.directory }
  | stopped :
      Effect suite now s .stop .nothing
        { s.core with latencies := ∅, held := ∅, unlisted := ∅, directory := .empty }
  /-- The retired secrets are off the directory, but they are still held. -/
  | rotating {act : Act} {r : Rollover} {rows : ExtTreeMap PeriodId PeriodSecret}
      (plans : Rollover.plan suite now s.core.latencies s.core.tolerance s.keyring.secrets = .ok r)
      (reached : rows = s.core.vault.rows ∨ rows = stored r s.core.vault.rows)
      (unreliable : ¬ s.core.Reliable) (rolls : act = .rotate ∨ act = .check) :
      Effect suite now s act .nothing
        { s.core with
          vault.rows := rows
          directory := unlistAllIn r.summary.retired s.core.directory }
  | rotated {act : Act} {report : Report} {r : Rollover} {taken refused : List PeriodSecret}
      (quiet : report = .done ∨ report = .nothing)
      (plans : Rollover.plan suite now s.core.latencies s.core.tolerance s.keyring.secrets = .ok r)
      (offered : Offered s.core (pending r s.core.unlisted ++ r.created) taken refused)
      (rolls : act = .rotate ∨ act = .check) :
      Effect suite now s act report
        { s.core with
          vault.rows := persisted r s.core.vault.rows
          held := r.held
          directory := listAllIn suite taken (unlistAllIn r.summary.retired s.core.directory)
          unlisted := waiting taken refused
            (ExtTreeSet.ofList ((pending r s.core.unlisted).map (·.id))) }
  | contactGone {contact : Contact} {rows : ExtTreeMap PeriodId PeriodSecret}
      (reached : rows = s.core.vault.rows ∨
        rows = s.core.vault.rows.filter fun id _ => id.contact ≠ contact) :
      Effect suite now s (.react (.contactGone contact)) .nothing
        { s.core with
          vault.rows := rows
          held := s.core.held.filter fun pair _ => pair.contact ≠ contact
          directory := s.core.directory.removeContact contact }
  | transportUp {transport : Transport} {latency : Nat} :
      Effect suite now s (.react (.transportUp transport latency)) .nothing
        { s.core with latencies := s.core.latencies.insert transport latency }
  | transportGone {transport : Transport} {vault : Vault}
      (reached : vault = s.core.vault ∨
        vault = { s.core.vault with
          rows := s.core.vault.rows.filter fun id _ => id.transport ≠ transport
          latencies := s.core.vault.latencies.erase transport }) :
      Effect suite now s (.react (.transportGone transport)) .nothing
        { s.core with
          vault
          latencies := s.core.latencies.erase transport
          held := s.core.held.filter fun pair _ => pair.transport ≠ transport
          directory := s.core.directory.removeTransport transport }
  | issued {pair : Pair} {current row : PeriodSecret}
      (held : (s.core.held[pair]?).bind (·.current) = some current)
      (kept : s.core.vault.rows[(⟨pair, current.period⟩ : PeriodId)]? = some row) :
      Effect suite now s (.issue pair)
        (.opened ⟨pair, current.period⟩ ⟨pair, current.key, row.outgoing, current.link.side⟩)
        { s.core with
          vault.rows := s.core.vault.rows.insert ⟨pair, current.period⟩
            { row with outgoing := row.outgoing + 1 } }
  | recognized {bytes : Bytes} {id : PeriodId} {ticket : Ticket} {window : SeenWindow}
      {directory : Directory}
      (recognizes : Registry.Recognizes suite bytes s.core.directory id ticket window directory) :
      Effect suite now s (.recognize bytes) (.answered id ticket)
        { s.core with
          vault.rows := Vault.withWindow id window s.core.vault.rows
          directory }
  | replaced {serial : Nat} :
      Effect suite now s (.replace serial) .nothing
        { s.core with latencies := ∅, held := ∅, unlisted := ∅ }
  | restarted :
      Effect suite now s .restart .nothing
        { s.core with
          latencies := ∅
          held := ∅
          unlisted := ∅
          directory := .empty
          refusal := fun _ _ => none }

/-! ## The operations -/

variable {suite : Suite} {s t : Station}

theorem effect_enroll {link : Link} {latency : Nat} {handshake : Key}
    {r : Except KeyringFault Unit} (h : (enroll suite link latency handshake).Ends s r t) :
    Effect suite s.post.agenda.now s (.enroll link latency handshake) (settle (r, t)).1 t.core := by
  simp only [enroll, ends_now_bind_iff, ends_get_bind_iff] at h
  cases at_now : Schedule.periodAt link.epoch
      (Schedule.interval latency s.keyring.settings.tolerance) s.post.agenda.now with
  | none =>
    simp only [at_now, ends_throw_iff] at h
    obtain ⟨rfl, rfl⟩ := h
    exact .kept _
  | some current =>
    simp only [at_now, ends_get_bind_iff] at h
    have idle_remove (v : Vault)
        (none : ¬ staleIds s.keyring link.toPair (liveSecrets suite link current handshake) ≠ []) :
        { v with
          rows := (staleIds s.keyring link.toPair (liveSecrets suite link current handshake)).foldl
            (·.erase ·) v.rows } = v := by
      rw [Classical.not_not.1 none, List.foldl_nil]
    rcases ends_bind_iff.1 h with ⟨fault, added, rfl⟩ | ⟨_, u, added, rest⟩
    · obtain ⟨g, rfl, gate, ⟨same, -⟩ | ⟨-, ok⟩⟩ := onVault_change_cases added
      · rw [core_setVault gate, same]
        exact .kept _
      · cases ok
    · obtain ⟨g, rfl, gate, ⟨-, ⟨_, fail⟩, -⟩ | ⟨add, -⟩⟩ := onVault_change_cases added
      · cases fail
      have reliable_iff {g : GuardedVault} (gate : g.gate.verdict = s.post.vault.gate.verdict)
          (writable : g.vault.writable = s.post.vault.vault.writable) :
          (core { s with post.vault := g }).Reliable ↔ s.core.Reliable := by
        simp only [Core.Reliable, core, gate, writable]
      obtain ⟨g', gate', ⟨rfl, same, ⟨fault, rfl⟩, unreliable⟩ | ⟨remove, rest⟩⟩ :=
        onVault_change_when_bind_cases idle_remove rest
      · rw [reliable_iff gate (by rw [add])] at unreliable
        rw [core_setVault gate', core_setVault gate, same, add]
        exact .enrolling at_now (.inl rfl) unreliable
      · rw [add] at remove
        replace gate' := gate'.trans gate
        rcases ends_bind_iff.1 rest with ⟨fault, loaded, rfl⟩ | ⟨stored, u, loaded, rest⟩
        · obtain ⟨g'', rfl, gate'', same, ⟨-, unreliable⟩ | ok⟩ := onVault_secrets_cases loaded
          · rw [reliable_iff gate' (by rw [remove])] at unreliable
            rw [core_setVault gate'', core_setVault gate', same, remove]
            exact .enrolling at_now (.inr rfl) unreliable
          · cases ok
        · obtain ⟨g'', rfl, gate'', same, ⟨⟨_, fail⟩, -⟩ | all⟩ := onVault_secrets_cases loaded
          · cases fail
          cases all
          simp only [ends_onKeyring_bind_iff, ends_onDirectory_bind_iff] at rest
          obtain ⟨rfl, taken, refused, offered, core_eq⟩ := listSecrets_cases rest
          have kept : g''.vault = { s.post.vault.vault with
              rows := (staleIds s.keyring link.toPair
                (liveSecrets suite link current handshake)).foldl (·.erase ·)
                  ((liveSecrets suite link current handshake).foldl Vault.put
                    s.core.vault.rows) } := by
            rw [same, remove]
            rfl
          rw [core_eq]
          simp only [core, kept, remove, gate''.trans gate'] at offered ⊢
          exact .enrolled at_now rfl ⟨offered.mem_iff, offered.of_willing⟩

theorem effect_start {r : Except KeyringFault Unit} (h : (start suite).Ends s r t) :
    Effect suite s.post.agenda.now s .start (settle (r, t)).1 t.core := by
  simp only [start, ends_get_bind_iff] at h
  split at h
  · obtain ⟨rfl, rfl⟩ := ends_throw_bind_iff.1 h
    exact .kept _
  rcases ends_bind_iff.1 h with ⟨fault, loaded, rfl⟩ | ⟨secrets, u, loaded, h⟩
  · obtain ⟨g, rfl, gate, same, -⟩ := onVault_secrets_cases loaded
    rw [core_setVault gate, same]
    exact .kept _
  obtain ⟨g, rfl, gate, same, ⟨⟨_, fail⟩, -⟩ | all⟩ := onVault_secrets_cases loaded
  · cases fail
  cases all
  rcases ends_bind_iff.1 h with ⟨fault, loaded', rfl⟩ | ⟨latencies, u, loaded', h⟩
  · obtain ⟨g', rfl, gate', same', -⟩ := onVault_transports_cases loaded'
    rw [core_setVault gate', same', core_setVault gate, same]
    exact .kept _
  obtain ⟨g', rfl, gate', same', ⟨⟨_, fail⟩, -⟩ | all⟩ := onVault_transports_cases loaded'
  · cases fail
  cases all
  replace gate' : g'.gate.verdict = s.post.vault.gate.verdict := gate'.trans gate
  simp only [ends_get_bind_iff, ends_now_bind_iff, same] at h same'
  rcases ends_ofExcept_bind_iff.1 h with ⟨fault, -, rfl, rfl⟩ | ⟨rollover, plans, h⟩
  · rw [core_setVault gate', same']
    exact .kept _
  rcases ends_bind_iff.1 h with ⟨fault, persisting, rfl⟩ | ⟨_, u, persisting, h⟩
  · obtain ⟨g'', rfl, gate'', ⟨-, unreliable, before | after⟩ | ⟨ok, -⟩⟩ := persist_cases persisting
    · rw [core_setVault (gate''.trans gate'), before, same']
      exact .kept _
    · rw [core_setVault (gate''.trans gate'), after]
      simp only [same']
      refine .starting plans ?_
      simpa only [Core.Reliable, core, gate', same'] using unreliable
    · cases ok
  obtain ⟨g'', rfl, gate'', ⟨⟨_, fail⟩, -⟩ | ⟨-, done⟩⟩ := persist_cases persisting
  · cases fail
  replace gate'' : g''.gate.verdict = s.post.vault.gate.verdict := gate''.trans gate'
  simp only [same'] at done
  rcases ends_bind_iff.1 h with ⟨fault, listing, rfl⟩ | ⟨_, u, listing, h⟩
  · rcases listAll_cases listing with ⟨ok, -⟩ | ⟨-, relisted, unwilling⟩
    · cases ok
    · rw [relisted.core_eq, core_setVault gate'', done]
      exact .startRefused plans unwilling
  rcases listAll_cases listing with ⟨-, intake, rfl, same_intake⟩ | ⟨⟨_, fail⟩, -⟩
  · rw [ends_modify_bind_iff] at h
    obtain ⟨rfl, rfl⟩ := ends_modify_iff.1 h
    simp only [core, attach, done, gate'', same_intake]
    exact .started plans
  · cases fail

theorem effect_rotate {act : Act} {r : Except KeyringFault Rollover.Summary}
    {report : Report} (quiet : report = .nothing ∨ report = (settle (r, t)).1)
    (rolls : act = .rotate ∨ act = .check) (h : (rotate suite).Ends s r t) :
    Effect suite s.post.agenda.now s act report t.core := by
  rcases ends_rotateBy_iff.1 h with ⟨fault, -, rfl, rfl⟩ | ⟨rollover, plans, h⟩
  · rw [show report = .nothing from quiet.elim id id]
    exact .kept _
  rcases ends_bind_iff.1 h with ⟨fault, persisting, rfl⟩ | ⟨_, u, persisting, h⟩
  · rw [show report = .nothing from quiet.elim id id]
    obtain ⟨g, rfl, gate, ⟨-, unreliable, before | after⟩ | ⟨ok, -⟩⟩ := persist_cases persisting
    · rw [core_setVault gate, before]
      exact .rotating plans (.inl rfl) unreliable rolls
    · rw [core_setVault gate, after]
      exact .rotating plans (.inr rfl) unreliable rolls
    · cases ok
  obtain ⟨g, rfl, gate, ⟨⟨_, fail⟩, -⟩ | ⟨-, done⟩⟩ := persist_cases persisting
  · cases fail
  rw [conclude, ends_onKeyring_bind_iff] at h
  rcases ends_bind_iff.1 h with ⟨fault, listing, -⟩ | ⟨_, u, listing, h⟩
  · cases (listSecrets_cases listing).1
  obtain ⟨-, taken, refused, offered, core_eq⟩ := listSecrets_cases listing
  obtain ⟨rfl, rfl⟩ := ends_pure_iff.1 h
  rw [core_eq]
  simp only [core, done, gate]
  exact .rotated (quiet.symm.imp_left fun eq => eq.trans rfl) plans
    ⟨offered.mem_iff, offered.of_willing⟩ rolls

theorem effect_issue {pair : Pair} :
    Effect suite s.post.agenda.now s (.issue pair) ((Act.issue pair).perform suite s).1
      ((Act.issue pair).perform suite s).2.core := by
  have ends := ends_toExcept (issue pair) s
  simp only [Act.perform]
  generalize (issue pair).toExcept s = ended at ends
  obtain ⟨r, t⟩ := ended
  dsimp only at ends
  simp only [issue, ends_get_bind_iff] at ends
  cases held : (s.keyring.held[pair]?).bind (·.current) with
  | none =>
    simp only [held, ends_pure_iff] at ends
    obtain ⟨rfl, rfl⟩ := ends
    exact .kept _
  | some current =>
    simp only [held] at ends
    rcases ends_bind_iff.1 ends with ⟨fault, reserved, rfl⟩ | ⟨stream, u, reserved, rest⟩
    · obtain ⟨g, rfl, gate, ⟨same, -⟩ | ⟨r', ends, failed⟩⟩ := onVault_cases reserved
      · rw [core_setVault gate, same]
        exact .kept _
      · rcases Vault.reserve_cases ends with ⟨same, -⟩ | ⟨row, -, rfl, -⟩
        · rw [core_setVault gate, same]
          exact .kept _
        · cases failed
    · obtain ⟨g, rfl, gate, ⟨-, ⟨fault, fail⟩, -⟩ | ⟨r', ends, ok⟩⟩ := onVault_cases reserved
      · cases fail
      cases r' with
      | error _ => cases ok
      | ok stream' =>
        cases ok
        rcases Vault.reserve_cases ends with ⟨same, none⟩ | ⟨row, kept, eq, changed⟩
        · cases stream with
          | some number => exact absurd rfl (none number)
          | none =>
            obtain ⟨rfl, rfl⟩ := ends_pure_iff.1 rest
            rw [core_setVault gate, same]
            exact .kept _
        · cases eq
          obtain ⟨rfl, rfl⟩ := ends_pure_iff.1 rest
          rw [core_setVault gate, changed]
          exact .issued held kept

theorem effect_recognize {bytes : Bytes} :
    Effect suite s.post.agenda.now s (.recognize bytes) ((Act.recognize bytes).perform suite s).1
      ((Act.recognize bytes).perform suite s).2.core := by
  have ends := ends_toExcept (Registry.recognize suite bytes) s.post.toRegistry
  simp only [Act.perform]
  generalize (Registry.recognize suite bytes).toExcept s.post.toRegistry = ended at ends
  obtain ⟨r, g⟩ := ended
  obtain ⟨gate, ⟨kept, same, nothing, -⟩ | ⟨id, ticket, window, rfl, -, recognizes, changed⟩⟩ :=
    Registry.recognize_cases ends
  · have core_eq : core { s with post.toRegistry := g } = s.core := by
      simp only at kept same gate
      simp only [core, kept, same, gate]
    rw [core_eq]
    dsimp only
    split
    · exact absurd rfl (nothing _)
    · exact .kept _
  · simp only at changed recognizes gate
    simp only [recognizes.lookup, core, changed, gate]
    exact .recognized recognizes

theorem effect_stop :
    Effect suite s.post.agenda.now s .stop .nothing s.stop.core := by
  unfold stop
  split
  · exact .stopped
  · exact .kept _

theorem tryVault_cases (kind : VaultCall) (f : Vault → Vault) (s : Station) :
    ∃ g, tryVault kind (do Vault.demandWritable; modify f) s = { s with post.vault := g } ∧
      g.gate.verdict = s.post.vault.gate.verdict ∧
      (g.vault = s.post.vault.vault ∨ g.vault = f s.post.vault.vault) := by
  have ends := ends_toExcept (onVault kind (do Vault.demandWritable; modify f)) s
  obtain ⟨g, eq, gate, reached⟩ := onVault_change_cases ends
  refine ⟨g, ?_, gate, reached.imp And.left And.left⟩
  rw [← eq, tryVault, toExcept]
  cases onVault kind (do Vault.demandWritable; modify f) s <;> rfl

theorem effect_react (notice : Notice) :
    Effect suite s.post.agenda.now s (.react notice) .nothing (s.react notice).core := by
  cases notice with
  | contactGone contact =>
    obtain ⟨g, eq, gate, reached⟩ := tryVault_cases .removeContact
      (fun v => { v with rows := v.rows.filter fun id _ => id.contact ≠ contact }) s
    simp only [react, Vault.removeContact, eq, core, gate]
    rcases reached with reached | reached
    · rw [reached]
      exact .contactGone (.inl rfl)
    · rw [reached]
      exact .contactGone (.inr rfl)
  | transportUp transport latency => exact .transportUp
  | transportGone transport =>
    obtain ⟨g, eq, gate, reached⟩ := tryVault_cases .removeTransport
      (fun v => { v with
        rows := v.rows.filter fun id _ => id.transport ≠ transport
        latencies := v.latencies.erase transport }) s
    simp only [react, Vault.removeTransport, eq, core, gate]
    exact .transportGone reached

theorem check_eq (running : s.keyring.running) :
    s.check suite = ((rotate suite).toExcept s).2 := by
  simp only [check, running, if_true, toExcept]
  cases rotate suite s <;> rfl

theorem effect_check : Effect suite s.post.agenda.now s .check .nothing (s.check suite).core := by
  by_cases running : s.keyring.running
  · rw [check_eq running]
    exact effect_rotate (.inl rfl) (.inr rfl) (ends_toExcept _ _)
  · rw [check, if_neg running]
    exact .kept _

theorem effect_act (act : Act) (s : Station) :
    Effect suite s.post.agenda.now s act (act.perform suite s).1 (act.perform suite s).2.core := by
  cases act with
  | enroll link latency handshake => exact effect_enroll (ends_toExcept _ _)
  | start => exact effect_start (ends_toExcept _ _)
  | stop => exact effect_stop
  | rotate => exact effect_rotate (.inr rfl) (.inl rfl) (ends_toExcept _ _)
  | check => exact effect_check
  | react notice => exact effect_react notice
  | issue pair => exact effect_issue
  | recognize bytes => exact effect_recognize
  | replace serial => exact .replaced
  | restart => exact .restarted

/-- Whatever happens at a station, its effect is one of those listed. -/
theorem effect_perform (now : Nat) (act : Act) (s : Station) :
    Effect suite now (s.atTime now) act (s.perform suite now act).1
      (s.perform suite now act).2.core :=
  effect_act act (s.atTime now)

/-- What holds of all stored secrets, whatever their counters say, holds after an act if it holds of
those that the act enrolls or derives. -/
theorem Effect.rowsOf {p : PeriodSecret → Prop} {now : Nat} {act : Act} {report : Report} {c : Core}
    (effect : Effect suite now s act report c) (lasting : Vault.Lasting p)
    (rows : Vault.RowsOf p s.core.vault.rows)
    (enrolled : ∀ link latency handshake current, act = .enroll link latency handshake →
      Schedule.periodAt link.epoch (Schedule.interval latency s.core.tolerance) now = some current →
        ∀ x ∈ liveSecrets suite link current handshake, p x)
    (started : ∀ r, Rollover.plan suite now s.core.vault.latencies s.core.tolerance
      s.core.vault.rows.values = .ok r → ∀ x ∈ r.created, p x)
    (rotated : ∀ r, Rollover.plan suite now s.core.latencies s.core.tolerance s.core.secrets = .ok r →
      ∀ x ∈ r.created, p x) : Vault.RowsOf p c.vault.rows := by
  cases effect with
  | enrolling at_now reached =>
    have added := rows.putAll lasting (enrolled _ _ _ _ rfl at_now)
    rcases reached with rfl | rfl
    · exact added
    · exact added.eraseAll _
  | enrolled at_now reached =>
    subst reached
    exact (rows.putAll lasting (enrolled _ _ _ _ rfl at_now)).eraseAll _
  | starting plans => exact rows.putAll lasting (started _ plans)
  | startRefused plans | started plans => exact (rows.putAll lasting (started _ plans)).eraseAll _
  | rotating plans reached =>
    rcases reached with rfl | rfl
    · exact rows
    · exact rows.putAll lasting (rotated _ plans)
  | rotated quiet plans => exact (rows.putAll lasting (rotated _ plans)).eraseAll _
  | contactGone reached =>
    rcases reached with rfl | rfl
    · exact rows
    · exact rows.filter _
  | transportGone reached =>
    rcases reached with rfl | rfl
    · exact rows
    · exact rows.filter _
  | @issued _ _ row held kept =>
    obtain ⟨named, holds⟩ := rows _ _ kept
    exact rows.insert named (lasting row _ row.incoming holds)
  | recognized => exact rows.withWindow lasting _ _
  | kept | stopped | transportUp | replaced | restarted => exact rows

/-- Whatever happens, every row bears the identity of its secret. -/
theorem named_run {acts : List (Nat × Act)}
    (named : Vault.RowsOf (fun _ => True) s.core.vault.rows) :
    Vault.RowsOf (fun _ => True) (s.run suite acts).core.vault.rows := by
  refine run_induction (fun t => Vault.RowsOf (fun _ => True) t.core.vault.rows) ?_ named
  intro t now act _ named
  have before : Vault.RowsOf (fun _ => True) (t.atTime now).core.vault.rows := named
  exact (effect_perform now act t).rowsOf (fun _ _ _ => id) before (by simp) (by simp) (by simp)

theorem effect_of_mem_log {acts : List (Nat × Act)} {s : Station}
    {e : Log.Entry Station (Nat × Act) Report} (mem : e ∈ log suite acts s) :
    e.act ∈ acts ∧
      Effect suite e.act.1 (e.before.atTime e.act.1) e.act.2 e.report e.after.core := by
  obtain ⟨within, report, after⟩ := of_mem_log mem
  refine ⟨within, ?_⟩
  rw [report, after]
  exact effect_perform e.act.1 e.act.2 e.before

/-- A directory that refuses no secret refuses none later. -/
theorem Effect.willing {suite : Suite} {now : Nat} {s : Station} {act : Act} {report : Report} {c : Core}
    (effect : Effect suite now s act report c) (willing : s.core.Willing) : c.Willing := by
  cases effect with
  | restarted => exact fun _ _ => rfl
  | _ => exact willing

theorem willing_run {suite : Suite} {acts : List (Nat × Act)} {s : Station} (willing : s.core.Willing)
    (now : Nat) : ((s.run suite acts).atTime now).core.Willing :=
  run_induction (fun t => t.core.Willing)
    (fun t now act _ willing => (effect_perform now act t).willing willing) willing

end SealedStream.Station
