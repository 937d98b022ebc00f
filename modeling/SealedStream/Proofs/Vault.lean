import SealedStream.Proofs.Actions
import SealedStream.Proofs.Maps
import SealedStream.Proofs.Origin
import SealedStream.Vault.Guarded

/-!
# What calls on the vault change

A call on the guarded vault is either turned away, and then the vault is as before, or it does what
the vault does. Adding genuine secrets leaves the rows of their identities and their windows and
counters alone; removing takes rows away.

## Main definitions

* `Vault.GenuineRows` — every row bears the identity of its secret, and all of them are genuine.
* `Vault.RowsOf` — the same, with another property of secrets in place of being genuine.
* `Vault.merged` — what is stored of a secret that was added.
* `Vault.Lasting` — a property that does not depend on counters.
* `GuardedVault.Accepts`, `GuardedVault.Reliable` — a call does not fail now, or none ever does.

## Main statements

* `GuardedVault.call_cases` — how a call ends.
* `Vault.getElem?_putAll` — the rows after adding secrets of the chain.
* `Vault.putAll_eq_self_iff`, `Vault.eraseAll_eq_self_iff` — when adding or removing changes nothing.
-/

namespace SealedStream

open Std SealedStream.Action

/-! ## Calls -/

namespace Gate

variable {κ ε : Type}

theorem ends_pass_iff {g t : Gate κ ε} {call : κ} {r : Except ε Unit} :
    (pass call).Ends g r t ↔
      t = { g with calls := g.calls + 1 } ∧
        r = (g.verdict g.calls call).elim (.ok ()) .error := by
  simp only [Ends, toExcept, pass]
  cases g.verdict g.calls call <;> simp [eq_comm, and_comm]

end Gate

namespace Vault

variable {v v' : Vault}

theorem ends_demandWritable_iff {r : Except StoreFault Unit} :
    demandWritable.Ends v r v' ↔
      v' = v ∧ r = if v.writable then .ok () else .error (.backend "writes disabled") := by
  simp only [demandWritable, ends_get_bind_iff]
  cases v.writable <;> simp [and_comm]

/-- A call that changes the vault is refused if writing is switched off. -/
theorem ends_demandWritable_bind_iff {α : Type} {act : Unit → Call α} {r : Except StoreFault α} :
    Ends (demandWritable >>= act) v r v' ↔
      if v.writable then (act ()).Ends v r v'
      else r = .error (.backend "writes disabled") ∧ v' = v := by
  simp only [ends_bind_iff, ends_demandWritable_iff]
  cases v.writable
  · simp [and_comm]
  · simp only [if_true, reduceCtorEq, and_false, false_and, exists_false, false_or]
    exact ⟨fun ⟨_, _, ⟨rfl, _⟩, h⟩ => h, fun h => ⟨(), v, ⟨rfl, trivial⟩, h⟩⟩

/-- A reservation changes the counter of one row, or nothing. -/
theorem reserve_cases {id : PeriodId} {r : Except StoreFault (Option Nat)}
    (h : (reserve id).Ends v r v') :
    v' = v ∧ (∀ stream, r ≠ .ok (some stream)) ∨
      ∃ held, v.rows[id]? = some held ∧ r = .ok (some held.outgoing) ∧
        v' = { v with rows := v.rows.insert id { held with outgoing := held.outgoing + 1 } } := by
  simp only [reserve, ends_demandWritable_bind_iff, ends_get_bind_iff] at h
  split at h
  · cases row : v.rows[id]? with
    | none =>
      simp only [row, ends_pure_iff] at h
      exact .inl ⟨h.2, by simp [h.1]⟩
    | some held =>
      simp only [row, ends_modify_bind_iff, ends_pure_iff] at h
      exact .inr ⟨held, rfl, h⟩
  · exact .inl ⟨h.2, by simp [h.1]⟩

/-- Where writing is allowed, the number that a row tells is reserved. -/
theorem reserve_of_writable {id : PeriodId} {r : Except StoreFault (Option Nat)}
    (writable : v.writable = true) (h : (reserve id).Ends v r v') :
    r = .ok ((v.rows[id]?).map (·.outgoing)) := by
  simp only [reserve, ends_demandWritable_bind_iff, if_pos writable, ends_get_bind_iff] at h
  cases row : v.rows[id]? with
  | none =>
    simp only [row, ends_pure_iff] at h
    exact h.1
  | some held =>
    simp only [row, ends_modify_bind_iff, ends_pure_iff] at h
    exact h.1

/-- Storing a window changes the window of one row, or nothing. -/
theorem setWindow_cases {id : PeriodId} {window : SeenWindow} {r : Except StoreFault Unit}
    (h : (setWindow id window).Ends v r v') :
    v' = v ∧ (v.writable = true → r = .ok ()) ∧ (r = .ok () → v.rows[id]? = none) ∨
      ∃ held, v.rows[id]? = some held ∧ r = .ok () ∧
        v' = { v with rows := v.rows.insert id { held with incoming := window } } := by
  simp only [setWindow, ends_demandWritable_bind_iff, ends_get_bind_iff] at h
  split at h
  · cases row : v.rows[id]? with
    | none =>
      simp only [row, ends_pure_iff] at h
      exact .inl ⟨h.2, fun _ => h.1, fun _ => rfl⟩
    | some held =>
      simp only [row, ends_modify_iff] at h
      exact .inr ⟨held, rfl, h⟩
  · rename_i locked
    exact .inl ⟨h.2, fun writable => absurd writable locked, by simp [h.1]⟩

/-! ## Rows -/

/-- Every row is genuine and bears the identity of its secret. -/
def GenuineRows (suite : Suite) (origin : Pair → Origin) (rows : ExtTreeMap PeriodId PeriodSecret) :
    Prop :=
  ∀ (id : PeriodId) (s : PeriodSecret), rows[id]? = some s → s.id = id ∧ s.Genuine suite origin

theorem getElem?_eraseAll (rows : ExtTreeMap PeriodId PeriodSecret) (ids : List PeriodId)
    (id : PeriodId) :
    (ids.foldl (·.erase ·) rows)[id]? = if id ∈ ids then none else rows[id]? :=
  getElem?_foldl_erase ids rows id

/-- A row that changes stays where it is. -/
theorem mem_insert_of_kept {rows : ExtTreeMap PeriodId PeriodSecret} {id : PeriodId}
    {row : PeriodSecret} (kept : rows[id]? = some row) (row' : PeriodSecret) (id' : PeriodId) :
    id' ∈ rows.insert id row' ↔ id' ∈ rows := by
  have there : id ∈ rows := by simp [ExtTreeMap.mem_iff_isSome_getElem?, kept]
  rw [ExtTreeMap.mem_insert, LawfulEqCmp.compare_eq_iff_eq]
  exact or_iff_right_of_imp fun same => same ▸ there

/-- Every row bears the identity of its secret, and `p` holds of the secret. -/
def RowsOf (p : PeriodSecret → Prop) (rows : ExtTreeMap PeriodId PeriodSecret) : Prop :=
  ∀ (id : PeriodId) (s : PeriodSecret), rows[id]? = some s → s.id = id ∧ p s

namespace RowsOf

variable {p : PeriodSecret → Prop} {rows : ExtTreeMap PeriodId PeriodSecret} (of : RowsOf p rows)
include of

theorem insert {id : PeriodId} {row : PeriodSecret} (named : row.id = id) (holds : p row) :
    RowsOf p (rows.insert id row) := by
  intro id' s there
  rw [ExtTreeMap.getElem?_insert] at there
  split at there
  · rename_i same
    cases there
    exact ⟨named.trans (LawfulEqCmp.compare_eq_iff_eq.1 same), holds⟩
  · exact of id' s there

theorem eraseAll (ids : List PeriodId) : RowsOf p (ids.foldl (·.erase ·) rows) := by
  intro id s there
  rw [getElem?_eraseAll] at there
  split at there
  · cases there
  · exact of id s there

theorem filter (keep : PeriodId → PeriodSecret → Bool) : RowsOf p (rows.filter keep) := by
  intro id s there
  rw [ExtTreeMap.getElem?_filter', Option.filter_eq_some_iff] at there
  exact of id s there.1

/-- The secrets of two rows with one identity are the same. -/
theorem eq_of_mem {s t : PeriodSecret} (mem : s ∈ rows.values) (mem' : t ∈ rows.values)
    (same : s.id = t.id) : s = t := by
  obtain ⟨id, there⟩ := mem_values.1 mem
  obtain ⟨id', there'⟩ := mem_values.1 mem'
  rw [(of id s there).1, (of id' t there').1] at same
  rw [same, there'] at there
  exact (Option.some.inj there).symm

end RowsOf

/-! ### Adding secrets -/

/-- What is stored of a secret that was added, from the row that was there. -/
def merged (row? : Option PeriodSecret) (s : PeriodSecret) : PeriodSecret :=
  match row? with
  | some row => if row.key = s.key then { row with outgoing := max row.outgoing s.outgoing } else s
  | none => s

theorem key_merged (row? : Option PeriodSecret) (s : PeriodSecret) : (merged row? s).key = s.key := by
  unfold merged
  split
  · split
    · assumption
    · rfl
  · rfl

theorem put_eq_insert (rows : ExtTreeMap PeriodId PeriodSecret) (s : PeriodSecret) :
    put rows s = rows.insert s.id (merged rows[s.id]? s) := by
  unfold put merged
  cases rows[s.id]? with
  | none => rfl
  | some row => exact (apply_ite (rows.insert s.id) _ _ _).symm

theorem getElem?_put (rows : ExtTreeMap PeriodId PeriodSecret) (s : PeriodSecret) (id : PeriodId) :
    (put rows s)[id]? = if s.id = id then some (merged rows[id]? s) else rows[id]? := by
  rw [put_eq_insert, ExtTreeMap.getElem?_insert]
  simp only [LawfulEqCmp.compare_eq_iff_eq]
  split
  · rename_i same
    rw [same]
  · rfl

theorem getElem?_putAll_of_forall_ne {rows : ExtTreeMap PeriodId PeriodSecret}
    {secrets : List PeriodSecret} {id : PeriodId} (others : ∀ s ∈ secrets, s.id ≠ id) :
    (secrets.foldl put rows)[id]? = rows[id]? := by
  induction secrets generalizing rows with
  | nil => rfl
  | cons s secrets ih =>
    rw [List.forall_mem_cons] at others
    rw [List.foldl_cons, ih others.2, getElem?_put, if_neg others.1]

/-- Of secrets with different identities, each is merged with the row that was there. -/
theorem getElem?_putAll_of_mem {rows : ExtTreeMap PeriodId PeriodSecret}
    {secrets : List PeriodSecret} (apart : secrets.Pairwise (·.id ≠ ·.id)) {s : PeriodSecret}
    (mem : s ∈ secrets) :
    (secrets.foldl put rows)[s.id]? = some (merged rows[s.id]? s) := by
  induction secrets generalizing rows with
  | nil => cases mem
  | cons first secrets ih =>
    obtain ⟨others, apart⟩ := List.pairwise_cons.1 apart
    rw [List.foldl_cons]
    rcases List.mem_cons.1 mem with rfl | mem
    · rw [getElem?_putAll_of_forall_ne fun x mem => (others x mem).symm, getElem?_put, if_pos rfl]
    · rw [ih apart mem, getElem?_put, if_neg (others s mem)]

/-- If the secrets of one identity have one key, then this key is stored. -/
theorem key_putAll {rows : ExtTreeMap PeriodId PeriodSecret} {secrets : List PeriodSecret}
    (agree : ∀ s ∈ secrets, ∀ t ∈ secrets, s.id = t.id → s.key = t.key) {s : PeriodSecret}
    (mem : s ∈ secrets) :
    ∃ row : PeriodSecret, (secrets.foldl put rows)[s.id]? = some row ∧ row.key = s.key := by
  induction secrets generalizing rows s with
  | nil => cases mem
  | cons first secrets ih =>
    have later {x : PeriodSecret} (mem : x ∈ secrets) : ∃ row : PeriodSecret,
        (secrets.foldl put (put rows first))[x.id]? = some row ∧ row.key = x.key :=
      ih (fun x mem y mem' => agree x (List.mem_cons_of_mem _ mem) y (List.mem_cons_of_mem _ mem'))
        mem
    rw [List.foldl_cons]
    by_cases again : ∃ x ∈ secrets, x.id = s.id
    · obtain ⟨x, mem', same⟩ := again
      obtain ⟨row, there, key⟩ := later mem'
      exact ⟨row, same ▸ there, key.trans (agree x (List.mem_cons_of_mem _ mem') s mem same)⟩
    · obtain rfl | mem := List.mem_cons.1 mem
      · rw [getElem?_putAll_of_forall_ne fun x mem same => again ⟨x, mem, same⟩, getElem?_put,
          if_pos rfl]
        exact ⟨_, rfl, key_merged ..⟩
      · exact absurd ⟨s, mem, rfl⟩ again

/-- The property is about what a secret is, and not about its counters. -/
def Lasting (p : PeriodSecret → Prop) : Prop :=
  ∀ s outgoing incoming, p s → p { s with outgoing, incoming }

theorem RowsOf.put {p : PeriodSecret → Prop} {rows : ExtTreeMap PeriodId PeriodSecret}
    (of : RowsOf p rows) (lasting : Lasting p) {s : PeriodSecret} (holds : p s) :
    RowsOf p (Vault.put rows s) := by
  rw [put_eq_insert]
  unfold merged
  cases there : rows[s.id]? with
  | none => exact of.insert rfl holds
  | some row =>
    obtain ⟨named, holds'⟩ := of s.id row there
    dsimp only
    split
    · exact of.insert named (lasting row _ row.incoming holds')
    · exact of.insert rfl holds

theorem RowsOf.putAll {p : PeriodSecret → Prop} {rows : ExtTreeMap PeriodId PeriodSecret}
    (of : RowsOf p rows) (lasting : Lasting p) {secrets : List PeriodSecret}
    (holds : ∀ s ∈ secrets, p s) : RowsOf p (secrets.foldl Vault.put rows) := by
  induction secrets generalizing rows with
  | nil => exact of
  | cons s secrets ih =>
    rw [List.forall_mem_cons] at holds
    exact ih (of.put lasting holds.1) holds.2

/-! ### Changes without effect -/

/-- Adding a fresh secret changes nothing if its key is stored under its identity. -/
theorem put_eq_self {rows : ExtTreeMap PeriodId PeriodSecret} {s row : PeriodSecret}
    (there : rows[s.id]? = some row) (key : row.key = s.key) (fresh : s.outgoing = 0) :
    put rows s = rows := by
  have kept : merged (some row) s = row := by
    change (if row.key = s.key then { row with outgoing := max row.outgoing s.outgoing } else s) = row
    rw [if_pos key, fresh, Nat.max_zero]
  rw [put_eq_insert, there, kept]
  ext1 id
  rw [ExtTreeMap.getElem?_insert]
  split
  · rename_i same
    rw [← LawfulEqCmp.compare_eq_iff_eq.1 same, there]
  · rfl

/-- Adding fresh secrets, with one key for an identity, changes nothing just if all of these keys are
stored. -/
theorem putAll_eq_self_iff {rows : ExtTreeMap PeriodId PeriodSecret} {secrets : List PeriodSecret}
    (fresh : ∀ s ∈ secrets, s.outgoing = 0)
    (agree : ∀ s ∈ secrets, ∀ t ∈ secrets, s.id = t.id → s.key = t.key) :
    secrets.foldl put rows = rows ↔
      ∀ s ∈ secrets, ∃ row : PeriodSecret, rows[s.id]? = some row ∧ row.key = s.key := by
  constructor
  · intro same s mem
    rw [← same]
    exact key_putAll agree mem
  · intro stored
    induction secrets with
    | nil => rfl
    | cons s secrets ih =>
      rw [List.forall_mem_cons] at fresh stored
      obtain ⟨row, there, key⟩ := stored.1
      rw [List.foldl_cons, put_eq_self there key fresh.1]
      exact ih fresh.2 (fun x mem y mem' => agree x (by simp [mem]) y (by simp [mem'])) stored.2

theorem eraseAll_eq_self_iff {rows : ExtTreeMap PeriodId PeriodSecret} {ids : List PeriodId} :
    ids.foldl (·.erase ·) rows = rows ↔ ∀ id ∈ ids, id ∉ rows := by
  constructor
  · intro same id mem there
    rw [ExtTreeMap.mem_iff_isSome_getElem?, ← same, getElem?_eraseAll, if_pos mem] at there
    cases there
  · intro absent
    ext1 id
    rw [getElem?_eraseAll]
    split
    · rename_i mem
      exact (ExtTreeMap.getElem?_eq_none (absent id mem)).symm
    · rfl

/-! ### Genuine secrets -/

variable {suite : Suite} {origin : Pair → Origin} {rows : ExtTreeMap PeriodId PeriodSecret}

theorem put_ofChain (genuine : GenuineRows suite origin rows) (id : PeriodId) :
    put rows (.ofChain suite origin id.toPair id.period) =
      if id ∈ rows then rows else rows.insert id (.ofChain suite origin id.toPair id.period) := by
  unfold put
  rw [PeriodSecret.id_ofChain]
  cases row : rows[id]? with
  | none => rw [if_neg (by simpa using row)]
  | some held =>
    obtain ⟨same, real⟩ := genuine id held row
    have key := real.key_eq (PeriodSecret.genuine_ofChain suite origin id.toPair id.period) same
    have there : id ∈ rows := by simp [ExtTreeMap.mem_iff_isSome_getElem?, row]
    rw [if_pos there]
    simp only [key, if_true]
    ext1 other
    rw [ExtTreeMap.getElem?_insert]
    split
    · rename_i eq
      rw [← LawfulEqCmp.compare_eq_iff_eq.1 eq, ← key]
      simp [PeriodSecret.ofChain, PeriodSecret.fresh, row]
    · rfl

/-- Adding secrets of the chain adds rows for those that are missing. -/
theorem getElem?_putAll (genuine : GenuineRows suite origin rows) {secrets : List PeriodSecret}
    (chained : ∀ s ∈ secrets, s = .ofChain suite origin s.pair s.period) (id : PeriodId) :
    (secrets.foldl put rows)[id]? = (rows[id]?).or
      (if ∃ s ∈ secrets, s.id = id then some (.ofChain suite origin id.toPair id.period)
        else none) := by
  induction secrets generalizing rows with
  | nil => simp
  | cons s secrets ih =>
    have self : .ofChain suite origin s.id.toPair s.id.period = s :=
      (chained s List.mem_cons_self).symm
    have first := put_ofChain genuine s.id
    rw [self] at first
    have step (id : PeriodId) : (put rows s)[id]? = (rows[id]?).or
        (if s.id = id then some (.ofChain suite origin id.toPair id.period) else none) := by
      by_cases same : s.id = id
      · subst same
        rw [first, if_pos rfl, self]
        by_cases there : s.id ∈ rows
        · simp [there]
        · simp [there]
      · rw [if_neg same, first]
        split
        · simp
        · simp [ExtTreeMap.getElem?_insert, same]
    have genuine' : GenuineRows suite origin (put rows s) := by
      intro id x there
      rw [step, Option.or_eq_some_iff] at there
      rcases there with there | ⟨-, there⟩
      · exact genuine id x there
      · obtain ⟨-, eq⟩ := Option.ite_none_right_eq_some.1 there
        cases eq
        exact ⟨rfl, PeriodSecret.genuine_ofChain ..⟩
    rw [List.foldl_cons, ih genuine' fun x mem => chained x (List.mem_cons_of_mem s mem), step,
      Option.or_assoc]
    congr 1
    by_cases same : s.id = id
    · simp [same]
    · simp [same]

theorem mem_putAll (genuine : GenuineRows suite origin rows) {secrets : List PeriodSecret}
    (chained : ∀ s ∈ secrets, s = .ofChain suite origin s.pair s.period) {id : PeriodId} :
    id ∈ secrets.foldl put rows ↔ id ∈ rows ∨ ∃ s ∈ secrets, s.id = id := by
  simp only [ExtTreeMap.mem_iff_isSome_getElem?, getElem?_putAll genuine chained, Option.isSome_or,
    Bool.or_eq_true, Option.isSome_ite]

theorem mem_eraseAll {ids : List PeriodId} {id : PeriodId} :
    id ∈ ids.foldl (·.erase ·) rows ↔ id ∈ rows ∧ id ∉ ids := by
  simp only [ExtTreeMap.mem_iff_isSome_getElem?, getElem?_eraseAll]
  split <;> simp_all

end Vault

/-! ## The guarded vault -/

namespace GuardedVault

/-- The vault can be written to, and a call of the given kind is not turned away now. -/
def Accepts (g : GuardedVault) (kind : VaultCall) : Prop :=
  g.vault.writable = true ∧ g.gate.verdict g.gate.calls kind = none

/-- The vault can be written to, and no call is ever turned away. -/
def Reliable (g : GuardedVault) : Prop :=
  g.vault.writable = true ∧ ∀ call kind, g.gate.verdict call kind = none

theorem Reliable.accepts {g : GuardedVault} (reliable : g.Reliable) (kind : VaultCall) :
    g.Accepts kind := ⟨reliable.1, reliable.2 _ _⟩

/-- A call is turned away and changes nothing, or ends as the vault says. The gate turns away the same
calls as before. -/
theorem call_cases {α : Type} {kind : VaultCall} {act : Vault.Call α} {g g' : GuardedVault}
    {r : Except StoreFault α} (h : (call kind act).Ends g r g') :
    g'.gate.verdict = g.gate.verdict ∧
      (g'.vault = g.vault ∧ (∃ fault, r = .error fault) ∧ ¬ g.Accepts kind ∨
        act.Ends g.vault r g'.vault) := by
  simp only [call, ends_bind_iff, ends_focus_iff, Gate.ends_pass_iff] at h
  rcases h with ⟨e, ⟨r', u, ⟨rfl, rfl⟩, named, rfl⟩, rfl⟩ |
    ⟨a, u, ⟨r', u, ⟨rfl, -⟩, -, rfl⟩, ⟨r', u, ends, rfl, rfl⟩⟩
  · refine ⟨rfl, .inl ⟨rfl, ⟨e, rfl⟩, ?_⟩⟩
    intro accepts
    rw [accepts.2] at named
    cases named
  · refine ⟨rfl, .inr ?_⟩
    cases r' <;> exact ends

/-- Every call is counted, whether it is turned away or not. -/
theorem calls_call {α : Type} {kind : VaultCall} {act : Vault.Call α} {g g' : GuardedVault}
    {r : Except StoreFault α} (h : (call kind act).Ends g r g') :
    g'.gate.calls = g.gate.calls + 1 := by
  simp only [call, ends_bind_iff, ends_focus_iff, Gate.ends_pass_iff] at h
  rcases h with ⟨e, ⟨r', u, ⟨rfl, -⟩, -, rfl⟩, -⟩ |
    ⟨a, u, ⟨r', u, ⟨rfl, -⟩, -, rfl⟩, ⟨r', u, -, -, rfl⟩⟩
  · rfl
  · rfl

end GuardedVault

end SealedStream
