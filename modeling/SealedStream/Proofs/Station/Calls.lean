import SealedStream.Proofs.Station.Run
import SealedStream.Proofs.Vault

/-!
# The parts of an operation

Operations of a keyring are made of calls on the vault and of attempts to list secrets. A call that
fails leaves the vault alone, and an attempt to list secrets changes only the directory.

## Main definitions

* `Station.Offered`, `Station.waiting` — what becomes of secrets that the directory may refuse.

## Main statements

* `Station.persist_cases` — how far storing a rollover can get.
* `Station.listSecrets_cases`, `Station.listAll_cases` — how listing secrets can end.
* `Station.ends_rotateBy_iff` — what a rotation does with its rollover.
-/

namespace SealedStream.Station

open Std SealedStream.Action

/-! ## Calls on the vault -/

section Calls

variable {suite : Suite} {s t : Station}

@[simp] theorem ends_now_bind_iff {α : Type} {f : Nat → Operation α} {r : Except KeyringFault α} :
    Ends (now >>= f) s r t ↔ (f s.post.agenda.now).Ends s r t := by
  simp [now]

@[simp] theorem ends_onKeyring_bind_iff {α : Type} {f : Keyring → Keyring}
    {next : Unit → Operation α} {r : Except KeyringFault α} :
    Ends (onKeyring f >>= next) s r t ↔ (next ()).Ends { s with keyring := f s.keyring } r t := by
  simp [onKeyring]

@[simp] theorem ends_onDirectory_bind_iff {α : Type} {f : Directory → Directory}
    {next : Unit → Operation α} {r : Except KeyringFault α} :
    Ends (onDirectory f >>= next) s r t ↔
      (next ()).Ends { s with post.directory := f s.post.directory } r t := by
  simp [onDirectory]

theorem core_setVault {g : GuardedVault} (gate : g.gate.verdict = s.post.vault.gate.verdict) :
    core { s with post.vault := g } = { s.core with vault := g.vault } := by
  simp only [core, gate]

/-- A call on the vault changes nothing but the vault. -/
theorem onVault_cases {α : Type} {kind : VaultCall} {act : Vault.Call α}
    {r : Except KeyringFault α} (h : (onVault kind act).Ends s r t) :
    ∃ g, t = { s with post.vault := g } ∧ g.gate.verdict = s.post.vault.gate.verdict ∧
      (g.vault = s.post.vault.vault ∧ (∃ fault, r = .error (.store fault)) ∧ ¬ s.core.Reliable ∨
        ∃ r', act.Ends s.post.vault.vault r' g.vault ∧ r = r'.mapError .store) := by
  obtain ⟨r', g, ends, rfl, rfl⟩ := ends_focus_iff.1 h
  obtain ⟨gate, ⟨same, ⟨fault, rfl⟩, refused⟩ | ends⟩ := GuardedVault.call_cases ends
  · exact ⟨g, rfl, gate, .inl ⟨same, ⟨fault, rfl⟩, fun reliable =>
      refused (GuardedVault.Reliable.accepts reliable kind)⟩⟩
  · exact ⟨g, rfl, gate, .inr ⟨r', ends, rfl⟩⟩

theorem onVault_change_cases {kind : VaultCall} {f : Vault → Vault}
    {r : Except KeyringFault Unit}
    (h : (onVault kind (do Vault.demandWritable; modify f)).Ends s r t) :
    ∃ g, t = { s with post.vault := g } ∧ g.gate.verdict = s.post.vault.gate.verdict ∧
      (g.vault = s.post.vault.vault ∧ (∃ fault, r = .error (.store fault)) ∧ ¬ s.core.Reliable ∨
        g.vault = f s.post.vault.vault ∧ r = .ok ()) := by
  obtain ⟨g, rfl, gate, kept | ⟨r', ends, rfl⟩⟩ := onVault_cases h
  · exact ⟨g, rfl, gate, .inl kept⟩
  · refine ⟨g, rfl, gate, ?_⟩
    rw [Vault.ends_demandWritable_bind_iff] at ends
    split at ends
    · obtain ⟨rfl, eq⟩ := ends_modify_iff.1 ends
      exact .inr ⟨eq, rfl⟩
    · rename_i locked
      obtain ⟨rfl, eq⟩ := ends
      exact .inl ⟨eq, ⟨_, rfl⟩, fun reliable => locked reliable.1⟩

theorem onVault_secrets_cases {r : Except KeyringFault (List PeriodSecret)}
    (h : (onVault .secrets Vault.secrets).Ends s r t) :
    ∃ g, t = { s with post.vault := g } ∧ g.gate.verdict = s.post.vault.gate.verdict ∧
      g.vault = s.post.vault.vault ∧
      ((∃ fault, r = .error (.store fault)) ∧ ¬ s.core.Reliable ∨
        r = .ok s.post.vault.vault.rows.values) := by
  obtain ⟨g, rfl, gate, ⟨same, failed⟩ | ⟨r', ends, rfl⟩⟩ := onVault_cases h
  · exact ⟨g, rfl, gate, same, .inl failed⟩
  · simp only [Vault.secrets, ends_get_bind_iff, ends_pure_iff] at ends
    obtain ⟨rfl, same⟩ := ends
    exact ⟨g, rfl, gate, same, .inr rfl⟩

theorem onVault_transports_cases {r : Except KeyringFault (ExtTreeMap Transport Nat)}
    (h : (onVault .transports Vault.transports).Ends s r t) :
    ∃ g, t = { s with post.vault := g } ∧ g.gate.verdict = s.post.vault.gate.verdict ∧
      g.vault = s.post.vault.vault ∧
      ((∃ fault, r = .error (.store fault)) ∧ ¬ s.core.Reliable ∨
        r = .ok s.post.vault.vault.latencies) := by
  obtain ⟨g, rfl, gate, ⟨same, failed⟩ | ⟨r', ends, rfl⟩⟩ := onVault_cases h
  · exact ⟨g, rfl, gate, same, .inl failed⟩
  · simp only [Vault.transports, ends_get_bind_iff, ends_pure_iff] at ends
    obtain ⟨rfl, same⟩ := ends
    exact ⟨g, rfl, gate, same, .inr rfl⟩

/-- A call that is left out where it would change nothing. -/
theorem onVault_change_when_cases {needed : Prop} [Decidable needed] {kind : VaultCall}
    {f : Vault → Vault} {r : Except KeyringFault Unit} (idle : ∀ v, ¬ needed → f v = v)
    (h : Ends (if needed then onVault kind (do Vault.demandWritable; modify f) else pure ()) s r t) :
    ∃ g, t = { s with post.vault := g } ∧ g.gate.verdict = s.post.vault.gate.verdict ∧
      (g.vault = s.post.vault.vault ∧ (∃ fault, r = .error (.store fault)) ∧ ¬ s.core.Reliable ∨
        g.vault = f s.post.vault.vault ∧ r = .ok ()) := by
  split at h
  · exact onVault_change_cases h
  · rename_i unneeded
    obtain ⟨rfl, rfl⟩ := ends_pure_iff.1 h
    exact ⟨t.post.vault, rfl, rfl, .inr ⟨(idle _ unneeded).symm, rfl⟩⟩

/-- The same, with something to be done afterwards. -/
theorem onVault_change_when_bind_cases {needed : Prop} [Decidable needed] {kind : VaultCall}
    {f : Vault → Vault} {α : Type} {next : Unit → Operation α} {r : Except KeyringFault α}
    (idle : ∀ v, ¬ needed → f v = v)
    (h : Ends (if needed then onVault kind (do Vault.demandWritable; modify f) >>= next
      else next ()) s r t) :
    ∃ g : GuardedVault, g.gate.verdict = s.post.vault.gate.verdict ∧
      (t = { s with post.vault := g } ∧ g.vault = s.post.vault.vault ∧
          (∃ fault, r = .error (.store fault)) ∧ ¬ s.core.Reliable ∨
        g.vault = f s.post.vault.vault ∧ (next ()).Ends { s with post.vault := g } r t) := by
  split at h
  · rcases ends_bind_iff.1 h with ⟨fault, changed, rfl⟩ | ⟨_, u, changed, rest⟩
    · obtain ⟨g, rfl, gate, ⟨same, ⟨_, fail⟩, unreliable⟩ | ⟨-, ok⟩⟩ := onVault_change_cases changed
      · cases fail
        exact ⟨g, gate, .inl ⟨rfl, same, ⟨_, rfl⟩, unreliable⟩⟩
      · cases ok
    · obtain ⟨g, rfl, gate, ⟨-, ⟨_, fail⟩, -⟩ | ⟨change, -⟩⟩ := onVault_change_cases changed
      · cases fail
      · exact ⟨g, gate, .inr ⟨change, rest⟩⟩
  · rename_i unneeded
    exact ⟨s.post.vault, rfl, .inr ⟨(idle _ unneeded).symm, h⟩⟩

/-- Persisting is done completely, or it stops before or after the derived secrets were stored. -/
theorem persist_cases {r : Rollover} {a : Except KeyringFault Unit}
    (h : (persist r).Ends s a t) :
    ∃ g, t = { s with post.vault := g } ∧ g.gate.verdict = s.post.vault.gate.verdict ∧
      ((∃ fault, a = .error (.store fault)) ∧ ¬ s.core.Reliable ∧
          (g.vault = s.post.vault.vault ∨
            g.vault = { s.post.vault.vault with rows := stored r s.post.vault.vault.rows }) ∨
        a = .ok () ∧
          g.vault = { s.post.vault.vault with rows := persisted r s.post.vault.vault.rows }) := by
  have idle_add (v : Vault) (none : ¬ r.created ≠ []) :
      { v with rows := r.created.foldl Vault.put v.rows } = v := by
    rw [Classical.not_not.1 none, List.foldl_nil]
  have idle_remove (v : Vault) (none : ¬ r.retired ≠ []) :
      { v with rows := r.retired.foldl (·.erase ·) v.rows } = v := by
    rw [Classical.not_not.1 none, List.foldl_nil]
  unfold persist at h
  obtain ⟨g, gate, ⟨rfl, same, ⟨fault, rfl⟩, unreliable⟩ | ⟨add, rest⟩⟩ :=
    onVault_change_when_bind_cases idle_add h
  · exact ⟨g, rfl, gate, .inl ⟨⟨_, rfl⟩, unreliable, .inl same⟩⟩
  · obtain ⟨g', rfl, gate', ⟨same, ⟨fault, rfl⟩, unreliable⟩ | ⟨remove, rfl⟩⟩ :=
      onVault_change_when_cases idle_remove rest
    · refine ⟨g', rfl, gate'.trans gate, .inl ⟨⟨_, rfl⟩, ?_, .inr (same.trans add)⟩⟩
      simpa only [Core.Reliable, core, gate, add] using unreliable
    · refine ⟨g', rfl, gate'.trans gate, .inr ⟨rfl, ?_⟩⟩
      rw [remove, add]
      rfl

end Calls

/-! ## Listing -/

/-- Of some secrets, the directory takes the ones and refuses the others. One that refuses no secret
takes them all. -/
structure Offered (c : Core) (secrets taken refused : List PeriodSecret) : Prop where
  mem_iff : ∀ x, x ∈ secrets ↔ x ∈ taken ∨ x ∈ refused
  of_willing : c.Willing → taken = secrets ∧ refused = []

/-- The identities that wait to be listed after some secrets were taken and others refused. -/
def waiting (taken refused : List PeriodSecret) (unlisted : ExtTreeSet PeriodId) :
    ExtTreeSet PeriodId :=
  ((taken.map (·.id)).foldl (·.erase ·) unlisted).insertMany (refused.map (·.id))

theorem mem_foldl_erase {ids : List PeriodId} {unlisted : ExtTreeSet PeriodId} {id : PeriodId} :
    id ∈ ids.foldl (·.erase ·) unlisted ↔ id ∈ unlisted ∧ id ∉ ids := by
  induction ids generalizing unlisted with
  | nil => simp
  | cons first ids ih =>
    rw [List.foldl_cons, ih, ExtTreeSet.mem_erase, ne_eq, LawfulEqCmp.compare_eq_iff_eq]
    grind

theorem mem_waiting {taken refused : List PeriodSecret} {unlisted : ExtTreeSet PeriodId}
    {id : PeriodId} :
    id ∈ waiting taken refused unlisted ↔
      (id ∈ unlisted ∧ ∀ x ∈ taken, x.id ≠ id) ∨ ∃ x ∈ refused, x.id = id := by
  simp [waiting, ExtTreeSet.mem_insertMany_list, mem_foldl_erase]

section Listing

variable {suite : Suite} {s t : Station}

/-- Only the directory and the gate before it may differ, and the gate refuses the same secrets. -/
def Relisted (directory : Directory) (s t : Station) : Prop :=
  ∃ intake, t = { s with post.directory := directory, post.intake := intake } ∧
    intake.verdict = s.post.intake.verdict

theorem Relisted.core_eq {directory : Directory} (h : Relisted directory s t) :
    t.core = { s.core with directory } := by
  obtain ⟨intake, rfl, same⟩ := h
  simp only [core, same]

/-- A secret is listed, or it is refused and the directory stays as it is. -/
theorem listSecret_cases {x : PeriodSecret} {r : Except CryptoFault Unit}
    (h : (listSecret suite x).Ends s r t) :
    r = .ok () ∧ Relisted (s.post.directory.add suite x) s t ∨
      (∃ fault, r = .error fault) ∧ Relisted s.post.directory s t ∧ ¬ s.core.Willing := by
  rcases ends_bind_iff.1 h with ⟨fault, passed, rfl⟩ | ⟨_, u, passed, added⟩
  · obtain ⟨r', g, ends, named, rfl⟩ := ends_focus_iff.1 passed
    obtain ⟨rfl, rfl⟩ := Gate.ends_pass_iff.1 ends
    refine .inr ⟨⟨_, rfl⟩, ⟨_, rfl, rfl⟩, ?_⟩
    intro willing
    rw [show s.post.intake.verdict s.post.intake.calls x = none from willing _ _] at named
    cases named
  · obtain ⟨r', g, ends, named, rfl⟩ := ends_focus_iff.1 passed
    obtain ⟨rfl, rfl⟩ := Gate.ends_pass_iff.1 ends
    obtain ⟨rfl, rfl⟩ := ends_modify_iff.1 added
    exact .inl ⟨rfl, _, rfl, rfl⟩

/-- Whether a secret is refused is noted and does not stop the others. -/
theorem noted_cases {x : PeriodSecret} {r : Except KeyringFault Bool}
    (h : Ends (fun station =>
        match listSecret suite x station with
        | .ok () station => .ok false station
        | .error _ station => .ok true station) s r t) :
    ∃ r', (listSecret suite x).Ends s r' t ∧ r = .ok (r' matches .error _) := by
  simp only [Ends, toExcept] at h ⊢
  cases ended : listSecret suite x s with
  | ok _ u =>
    rw [ended] at h
    obtain ⟨rfl, rfl⟩ := Prod.mk.inj h
    exact ⟨_, rfl, rfl⟩
  | error fault u =>
    rw [ended] at h
    obtain ⟨rfl, rfl⟩ := Prod.mk.inj h
    exact ⟨_, rfl, rfl⟩

theorem offer_cases {secrets : List PeriodSecret}
    {r : Except KeyringFault (List PeriodId × List PeriodId)}
    (h : (offer suite secrets).Ends s r t) :
    ∃ taken refused, r = .ok (refused.map (·.id), taken.map (·.id)) ∧
      Offered s.core secrets taken refused ∧
        Relisted (listAllIn suite taken s.post.directory) s t := by
  induction secrets generalizing s r t with
  | nil =>
    obtain ⟨rfl, rfl⟩ := ends_pure_iff.1 h
    exact ⟨[], [], rfl, ⟨by simp, fun _ => ⟨rfl, rfl⟩⟩, _, rfl, rfl⟩
  | cons x secrets ih =>
    rcases ends_bind_iff.1 h with ⟨fault, noted, -⟩ | ⟨refuses, u, noted, rest⟩
    · obtain ⟨_, -, ok⟩ := noted_cases noted
      cases ok
    obtain ⟨r', ends, ok⟩ := noted_cases noted
    rcases ends_bind_iff.1 rest with ⟨fault, others, -⟩ | ⟨answer, v, others, last⟩
    · obtain ⟨_, _, ok, -⟩ := ih others
      cases ok
    obtain ⟨taken, refused, eq, offered, intake', rfl, same'⟩ := ih others
    cases eq
    obtain ⟨rfl, rfl⟩ := ends_pure_iff.1 last
    rcases listSecret_cases ends with ⟨rfl, intake, rfl, same⟩ | ⟨⟨_, rfl⟩, ⟨intake, rfl, same⟩, no⟩
    · cases ok
      refine ⟨x :: taken, refused, rfl, ⟨?_, fun willing => ?_⟩, intake', rfl, same'.trans same⟩
      · intro y
        simp only [List.mem_cons, offered.mem_iff, or_assoc]
      · obtain ⟨rfl, rfl⟩ := offered.of_willing fun call y => by
          simp only [core, same]
          exact willing call y
        exact ⟨rfl, rfl⟩
    · cases ok
      refine ⟨taken, x :: refused, rfl, ⟨?_, fun willing => absurd willing no⟩, intake', rfl,
        same'.trans same⟩
      intro y
      simp only [List.mem_cons, offered.mem_iff]
      exact or_left_comm

/-- Listing secrets never fails. -/
theorem listSecrets_cases {secrets : List PeriodSecret} {r : Except KeyringFault Unit}
    (h : (listSecrets suite secrets).Ends s r t) :
    r = .ok () ∧ ∃ taken refused, Offered s.core secrets taken refused ∧
      t.core = { s.core with
        directory := listAllIn suite taken s.core.directory
        unlisted := waiting taken refused s.core.unlisted } := by
  rcases ends_bind_iff.1 h with ⟨fault, offering, -⟩ | ⟨answer, u, offering, noted⟩
  · obtain ⟨_, _, ok, -⟩ := offer_cases offering
    cases ok
  · obtain ⟨taken, refused, eq, offered, intake, rfl, same⟩ := offer_cases offering
    cases eq
    obtain ⟨rfl, rfl⟩ := ends_modify_iff.1 noted
    exact ⟨rfl, taken, refused, offered, by simp only [core, same]; rfl⟩

theorem forM_listSecret_cases {secrets : List PeriodSecret} {r : Except CryptoFault PUnit}
    (h : Ends (secrets.forM (listSecret suite)) s r t) :
    r = .ok ⟨⟩ ∧ Relisted (listAllIn suite secrets s.post.directory) s t ∨
      (∃ fault, r = .error fault) ∧ (∃ directory, Relisted directory s t) ∧ ¬ s.core.Willing := by
  induction secrets generalizing s with
  | nil =>
    obtain ⟨rfl, rfl⟩ := ends_pure_iff.1 h
    exact .inl ⟨rfl, _, rfl, rfl⟩
  | cons x secrets ih =>
    rcases ends_bind_iff.1 h with ⟨fault, first, rfl⟩ | ⟨_, u, first, others⟩
    · rcases listSecret_cases first with ⟨ok, -⟩ | ⟨-, relisted, unwilling⟩
      · cases ok
      · exact .inr ⟨⟨_, rfl⟩, ⟨_, relisted⟩, unwilling⟩
    · rcases listSecret_cases first with ⟨-, intake, rfl, same⟩ | ⟨⟨_, fail⟩, -⟩
      · rcases ih others with
          ⟨rfl, intake', rfl, same'⟩ | ⟨fails, ⟨directory, intake', rfl, same'⟩, unwilling⟩
        · exact .inl ⟨rfl, intake', rfl, same'.trans same⟩
        · refine .inr ⟨fails, ⟨directory, intake', rfl, same'.trans same⟩, fun willing => ?_⟩
          refine unwilling fun call y => ?_
          simp only [core, same]
          exact willing call y
      · cases fail

/-- Listing all secrets of a starting keyring works out, or empties the directory. -/
theorem listAll_cases {secrets : List PeriodSecret} {r : Except KeyringFault Unit}
    (h : (listAll suite secrets).Ends s r t) :
    r = .ok () ∧ Relisted (listAllIn suite secrets s.post.directory) s t ∨
      (∃ fault, r = .error (.crypto fault)) ∧ Relisted .empty s t ∧ ¬ s.core.Willing := by
  simp only [Ends, toExcept, listAll] at h
  cases ended : secrets.forM (listSecret suite) s with
  | ok _ u =>
    rw [ended] at h
    obtain ⟨rfl, rfl⟩ := Prod.mk.inj h
    have ends : Ends (secrets.forM (listSecret suite)) s (.ok ⟨⟩) u := by
      simp only [Ends, toExcept, ended]
    rcases forM_listSecret_cases ends with ⟨-, relisted⟩ | ⟨⟨_, fail⟩, -⟩
    · exact .inl ⟨rfl, relisted⟩
    · cases fail
  | error fault u =>
    rw [ended] at h
    obtain ⟨rfl, rfl⟩ := Prod.mk.inj h
    have ends : Ends (secrets.forM (listSecret suite)) s (.error fault) u := by
      simp only [Ends, toExcept, ended]
    rcases forM_listSecret_cases ends with ⟨ok, -⟩ | ⟨-, ⟨directory, intake, rfl, same⟩, unwilling⟩
    · cases ok
    · exact .inr ⟨⟨_, rfl⟩, ⟨intake, rfl, same⟩, unwilling⟩

end Listing

/-! ## Rotations -/

section Rotations

variable {rounds : Rounds} {suite : Suite} {s t : Station} {r : Rollover}
  {answer : Except KeyringFault Rollover.Summary}

/-- The rollover that a rotation carries out. -/
def rotatePlanBy (rounds : Rounds) (suite : Suite) (s : Station) : Except KeyringFault Rollover :=
  Rollover.planBy rounds.created suite s.post.agenda.now s.core.latencies s.core.tolerance
    (rounds.held.arrange s.core.secrets)

/-- A rotation fails with its rollover and changes nothing, or it takes the retired secrets off the
directory, stores the rollover and concludes. -/
theorem ends_rotateBy_iff : (rotateBy rounds suite).Ends s answer t ↔
    (∃ fault, rotatePlanBy rounds suite s = .error fault ∧ answer = .error fault ∧ t = s) ∨
      ∃ r, rotatePlanBy rounds suite s = .ok r ∧
        Ends (persist r >>= fun _ => conclude rounds suite s.keyring.unlisted r)
          { s with post.directory := unlistAllIn r.summary.retired s.post.directory } answer t := by
  simp only [rotateBy, ends_get_bind_iff, ends_now_bind_iff]
  rw [ends_ofExcept_bind_iff]
  simp only [ends_onDirectory_bind_iff]
  exact Iff.rfl

/-- A rotation whose rollover is stored does not fail. -/
theorem conclude_cases {unlisted : ExtTreeSet PeriodId}
    (h : (conclude rounds suite unlisted r).Ends s answer t) : answer = .ok r.summary := by
  rw [conclude, ends_onKeyring_bind_iff] at h
  rcases ends_bind_iff.1 h with ⟨fault, listing, -⟩ | ⟨_, u, -, last⟩
  · cases (listSecrets_cases listing).1
  · exact (ends_pure_iff.1 last).1

end Rotations

end SealedStream.Station
