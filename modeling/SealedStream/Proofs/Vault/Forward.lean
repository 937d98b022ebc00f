import SealedStream.Proofs.Log
import SealedStream.Proofs.Vault

/-!
# Rows only move forward

Operations on a vault are carried out one after the other, and writing is switched off and on in between.
As long as a row is neither removed nor replaced by one with another key, its stream counter goes up and
never down, whatever counters are added, and its window changes only when it is set. An operation that
fails changes nothing at all.

## Main definitions

* `Vault.Op`, `Vault.Op.perform` — the operations, and how they end.
* `Vault.Spares` — an operation finds a row and neither removes nor replaces it.
* `Vault.Forward` — what an operation does to a row that it spares.

## Main statements

* `Vault.Op.perform_eq` — an operation is refused, or it has its effect.
* `Vault.rows_move_forward` — what the operations of a run do to the rows.
-/

namespace SealedStream.Vault

open Std SealedStream.Action

/-- An operation on a vault. -/
inductive Op where
  | secrets
  | transports
  | add (batch : List PeriodSecret)
  | remove (ids : List PeriodId)
  | removeContact (contact : Contact)
  | removeTransport (transport : Transport)
  | reserve (id : PeriodId)
  | setWindow (id : PeriodId) (window : SeenWindow)
  | setLatency (transport : Transport) (latency : Nat)
  /-- Switches writing on or off. -/
  | setWritable (writable : Bool)

/-- What an operation answers. -/
inductive Answer where
  | done
  | secrets (rows : List PeriodSecret)
  | transports (latencies : ExtTreeMap Transport Nat)
  | stream (number? : Option Nat)

namespace Op

/-- An operation as a call. -/
def call : Op → Call Answer
  | .secrets => return .secrets (← Vault.secrets)
  | .transports => return .transports (← Vault.transports)
  | .add batch => do Vault.add batch; return .done
  | .remove ids => do Vault.remove ids; return .done
  | .removeContact contact => do Vault.removeContact contact; return .done
  | .removeTransport transport => do Vault.removeTransport transport; return .done
  | .reserve id => return .stream (← Vault.reserve id)
  | .setWindow id window => do Vault.setWindow id window; return .done
  | .setLatency transport latency => do modify (Vault.setLatency transport latency); return .done
  | .setWritable writable => do modify fun v => { v with writable }; return .done

/-- Carries out an operation. -/
def perform (op : Op) (v : Vault) : Except StoreFault Answer × Vault := op.call.toExcept v

/-! ## One operation -/

/-- The operation needs writing to be switched on. -/
def Writes : Op → Prop
  | .secrets | .transports | .setLatency .. | .setWritable .. => False
  | _ => True

instance (op : Op) : Decidable op.Writes := by
  cases op <;> unfold Writes <;> infer_instance

/-- What an operation answers if it is not refused. -/
def answer (v : Vault) : Op → Answer
  | .secrets => .secrets v.rows.values
  | .transports => .transports v.latencies
  | .reserve id => .stream ((v.rows[id]?).map (·.outgoing))
  | _ => .done

/-- The vault that an operation leaves if it is not refused. -/
def effect (v : Vault) : Op → Vault
  | .secrets | .transports => v
  | .add batch => { v with rows := batch.foldl put v.rows }
  | .remove ids => { v with rows := ids.foldl (·.erase ·) v.rows }
  | .removeContact contact => { v with rows := v.rows.filter fun id _ => id.contact ≠ contact }
  | .removeTransport transport =>
    { v with
      rows := v.rows.filter fun id _ => id.transport ≠ transport
      latencies := v.latencies.erase transport }
  | .reserve id => (v.rows[id]?).elim v fun row =>
    { v with rows := v.rows.insert id { row with outgoing := row.outgoing + 1 } }
  | .setWindow id window => (v.rows[id]?).elim v fun row =>
    { v with rows := v.rows.insert id { row with incoming := window } }
  | .setLatency transport latency => v.setLatency transport latency
  | .setWritable writable => { v with writable }

/-- An operation is refused and changes nothing, or it answers and has its effect. -/
theorem perform_eq (op : Op) (v : Vault) :
    op.perform v = if op.Writes ∧ v.writable = false then (.error (.backend "writes disabled"), v)
      else (.ok (op.answer v), op.effect v) := by
  obtain ⟨rows, latencies, writable⟩ := v
  cases op with
  | secrets | transports | setLatency | setWritable => exact (if_neg And.left).symm
  | add | remove | removeContact | removeTransport => cases writable <;> rfl
  | reserve id =>
    cases writable with
    | false => rfl
    | true =>
      have ends : (Vault.reserve id).Ends ⟨rows, latencies, true⟩ (.ok ((rows[id]?).map (·.outgoing)))
          ((Op.reserve id).effect ⟨rows, latencies, true⟩) := by
        simp only [Vault.reserve, ends_demandWritable_bind_iff, if_true, ends_get_bind_iff, effect]
        cases rows[id]? with
        | none => exact ends_pure_iff.2 ⟨rfl, rfl⟩
        | some row => exact ends_modify_bind_iff.2 (ends_pure_iff.2 ⟨rfl, rfl⟩)
      exact ends_bind_ok_iff.2 ⟨_, _, ends, ends_pure_iff.2 ⟨rfl, rfl⟩⟩
  | setWindow id window =>
    cases writable with
    | false => rfl
    | true =>
      have ends : (Vault.setWindow id window).Ends ⟨rows, latencies, true⟩ (.ok ())
          ((Op.setWindow id window).effect ⟨rows, latencies, true⟩) := by
        simp only [Vault.setWindow, ends_demandWritable_bind_iff, if_true, ends_get_bind_iff, effect]
        cases rows[id]? with
        | none => exact ends_pure_iff.2 ⟨rfl, rfl⟩
        | some row => exact ends_modify_iff.2 ⟨rfl, rfl⟩
      exact ends_bind_ok_iff.2 ⟨_, _, ends, ends_pure_iff.2 ⟨rfl, rfl⟩⟩

theorem perform_of_error {op : Op} {v : Vault} {fault : StoreFault}
    (failed : (op.perform v).1 = .error fault) : v.writable = false ∧ (op.perform v).2 = v := by
  rw [perform_eq] at failed ⊢
  split
  · rename_i refused
    exact ⟨refused.2, rfl⟩
  · rename_i accepted
    rw [if_neg accepted] at failed
    cases failed

theorem perform_of_ok {op : Op} {v : Vault} {answer : Answer} (done : (op.perform v).1 = .ok answer) :
    answer = op.answer v ∧ (op.perform v).2 = op.effect v := by
  rw [perform_eq] at done ⊢
  split
  · rename_i refused
    rw [if_pos refused] at done
    cases done
  · rename_i accepted
    rw [if_neg accepted] at done
    exact ⟨(Except.ok.inj done).symm, rfl⟩

/-! ## What an operation does to a row -/

/-- The operation removes the row of an identity, or adds a secret of that identity with another key. -/
def Disturbs (id : PeriodId) (key : Key) : Op → Prop
  | .add batch => ∃ s ∈ batch, s.id = id ∧ s.key ≠ key
  | .remove ids => id ∈ ids
  | .removeContact contact => id.contact = contact
  | .removeTransport transport => id.transport = transport
  | _ => False

instance (id : PeriodId) (key : Key) (op : Op) : Decidable (op.Disturbs id key) := by
  cases op <;> unfold Disturbs <;> infer_instance

/-- What becomes of a row that an operation does not disturb. A batch of secrets of its identity leaves
the greatest of all counters. -/
def revise (id : PeriodId) (row : PeriodSecret) : Op → PeriodSecret
  | .add batch =>
    { row with
      outgoing := (batch.filter (·.id = id)).foldl (fun n s => max n s.outgoing) row.outgoing }
  | .reserve id' => if id' = id then { row with outgoing := row.outgoing + 1 } else row
  | .setWindow id' window => if id' = id then { row with incoming := window } else row
  | _ => row

variable {id : PeriodId} {row : PeriodSecret}

theorem getElem?_putAll_of_key {batch : List PeriodSecret} {rows : ExtTreeMap PeriodId PeriodSecret}
    (held : rows[id]? = some row) (undisturbed : ¬ (Op.add batch).Disturbs id row.key) :
    (batch.foldl put rows)[id]? = some ((Op.add batch).revise id row) := by
  induction batch generalizing rows row with
  | nil => exact held
  | cons s batch ih =>
    have later : ¬ (Op.add batch).Disturbs id row.key := by
      rintro ⟨t, mem, other⟩
      exact undisturbed ⟨t, List.mem_cons_of_mem s mem, other⟩
    rw [List.foldl_cons]
    by_cases same : s.id = id
    · have key : row.key = s.key := Decidable.not_not.1 fun differ =>
        undisturbed ⟨s, List.mem_cons_self, same, Ne.symm differ⟩
      have merges : merged (some row) s = { row with outgoing := max row.outgoing s.outgoing } :=
        if_pos key
      have next : (put rows s)[id]? = some { row with outgoing := max row.outgoing s.outgoing } := by
        rw [getElem?_put, if_pos same, held, merges]
      rw [ih next later]
      simp [revise, same]
    · have next : (put rows s)[id]? = some row := by rw [getElem?_put, if_neg same, held]
      rw [ih next later]
      simp [revise, same]

/-- An operation that does not disturb a row revises it. -/
theorem getElem?_effect {op : Op} {v : Vault} (held : v.rows[id]? = some row)
    (undisturbed : ¬ op.Disturbs id row.key) :
    (op.effect v).rows[id]? = some (op.revise id row) := by
  cases op with
  | secrets | transports | setLatency | setWritable => exact held
  | add batch => exact getElem?_putAll_of_key held undisturbed
  | remove ids =>
    have absent : id ∉ ids := undisturbed
    exact (getElem?_eraseAll ..).trans ((if_neg absent).trans held)
  | removeContact contact =>
    have other : id.contact ≠ contact := undisturbed
    have kept := getElem?_filter_not (fun id : PeriodId => id.contact = contact) v.rows id
    exact kept.trans ((if_neg other).trans held)
  | removeTransport transport =>
    have other : id.transport ≠ transport := undisturbed
    have kept := getElem?_filter_not (fun id : PeriodId => id.transport = transport) v.rows id
    exact kept.trans ((if_neg other).trans held)
  | reserve id' | setWindow id' =>
    simp only [effect, revise]
    cases there : v.rows[id']? with
    | none =>
      have other : id' ≠ id := by
        rintro rfl
        rw [held] at there
        cases there
      rw [if_neg other]
      exact held
    | some row' =>
      simp only [Option.elim_some, ExtTreeMap.getElem?_insert, LawfulEqCmp.compare_eq_iff_eq]
      split
      · rename_i same
        subst same
        rw [held, Option.some.injEq] at there
        rw [there]
      · exact held

/-- Whatever is revised, it is still the same secret. -/
theorem revise_same (op : Op) : (op.revise id row).link = row.link ∧
    (op.revise id row).period = row.period ∧ (op.revise id row).key = row.key := by
  cases op with
  | reserve id' | setWindow id' =>
    simp only [revise]
    split <;> exact ⟨rfl, rfl, rfl⟩
  | _ => exact ⟨rfl, rfl, rfl⟩

theorem le_outgoing_revise (op : Op) : row.outgoing ≤ (op.revise id row).outgoing := by
  cases op with
  | add batch =>
    simp only [revise]
    generalize row.outgoing = n
    induction batch.filter (·.id = id) generalizing n with
    | nil => exact Nat.le_refl _
    | cons s batch ih => exact Nat.le_trans (Nat.le_max_left ..) (ih _)
  | reserve id' =>
    simp only [revise]
    split
    · exact Nat.le_succ _
    · exact Nat.le_refl _
  | setWindow id' window =>
    simp only [revise]
    split <;> exact Nat.le_refl _
  | _ => exact Nat.le_refl _

/-- Only setting the window of a row changes it. -/
theorem incoming_revise (op : Op) : (op.revise id row).incoming = row.incoming ∨
    ∃ window, op = .setWindow id window ∧ (op.revise id row).incoming = window := by
  cases op with
  | reserve id' =>
    simp only [revise]
    split <;> exact .inl rfl
  | setWindow id' window =>
    simp only [revise]
    split
    · rename_i same
      exact .inr ⟨window, by rw [same], rfl⟩
    · exact .inl rfl
  | _ => exact .inl rfl

end Op

/-! ## Runs -/

/-- An operation of a run: the vault that it found, how it ended, and the vault that it left. -/
abbrev Event := Log.Entry Vault Op (Except StoreFault Answer)

variable {id : PeriodId} {v : Vault} {ops : List Op} {e : Event}

/-- The operation finds a row for an identity, and if it succeeds, it neither removes the row nor replaces
it by one with another key. -/
def Spares (id : PeriodId) (e : Event) : Prop :=
  ∃ row ∈ e.before.rows[id]?, e.report.isOk → ¬ e.act.Disturbs id row.key

instance (id : PeriodId) (e : Event) : Decidable (Spares id e) :=
  inferInstanceAs (Decidable (∃ row ∈ e.before.rows[id]?, _))

/-- The stream number that an operation hands out for an identity. -/
def Event.number? (id : PeriodId) (e : Event) : Option Nat :=
  match e.act, e.report with
  | .reserve id', .ok (.stream number?) => if id' = id then number? else none
  | _, _ => none

/-- What an operation does to a row that it spares. -/
structure Forward (id : PeriodId) (e : Event) (row row' : PeriodSecret) : Prop where
  found : e.before.rows[id]? = some row
  left : e.after.rows[id]? = some row'
  link : row'.link = row.link
  period : row'.period = row.period
  key : row'.key = row.key
  outgoing : row.outgoing ≤ row'.outgoing
  number : ∀ n, e.number? id = some n → n = row.outgoing ∧ n < row'.outgoing
  hands : ∀ answer, e.act = .reserve id → e.report = .ok answer → ∃ n, e.number? id = some n
  incoming : row'.incoming = row.incoming ∨ ∃ window, e.act = .setWindow id window ∧
    row'.incoming = window
  sets : ∀ window answer, e.act = .setWindow id window → e.report = .ok answer →
    row'.incoming = window

/-- An operation that is not refused hands out the counter of a row if it is asked for. -/
theorem Event.number?_eq_some_iff {row : PeriodSecret} {n : Nat}
    (found : e.before.rows[id]? = some row) (done : e.report = .ok (e.act.answer e.before)) :
    e.number? id = some n ↔ e.act = .reserve id ∧ n = row.outgoing := by
  obtain ⟨before, act, report, after⟩ := e
  obtain rfl : report = .ok (act.answer before) := done
  cases act with
  | reserve id' =>
    by_cases same : id' = id
    · subst same
      simp only [number?, Op.answer, if_true, found, Option.map_some, Option.some.injEq, true_and]
      exact eq_comm
    · simp [number?, Op.answer, same]
  | _ => simp [number?]

/-- A row that an operation spares is left as it is if the operation fails, and else it is revised. -/
theorem Spares.forward (spares : Spares id e) (mem : e ∈ log Op.perform ops v) :
    ∃ row row', Forward id e row row' := by
  obtain ⟨row, found, undisturbed⟩ := spares
  obtain ⟨-, report, after⟩ := of_mem_log mem
  cases ended : e.report with
  | error fault =>
    have failed (answer : Answer) : e.report ≠ .ok answer := by simp [ended]
    have silent : e.number? id = none := by
      simp only [Event.number?, ended]
      cases e.act <;> rfl
    have same : e.after = e.before := after.trans (Op.perform_of_error (report.symm.trans ended)).2
    exact ⟨row, row,
      { found, left := same ▸ found, link := rfl, period := rfl, key := rfl, outgoing := Nat.le_refl _
        number := fun n handed => absurd (silent.symm.trans handed) nofun
        hands := fun answer _ done => absurd done (failed answer)
        incoming := .inl rfl
        sets := fun _ answer _ done => absurd done (failed answer) }⟩
  | ok answer =>
    obtain ⟨rfl, effect⟩ := Op.perform_of_ok (report.symm.trans ended)
    have left : e.after.rows[id]? = some (e.act.revise id row) := by
      rw [after, effect]
      exact Op.getElem?_effect found (undisturbed (by rw [ended]; rfl))
    obtain ⟨link, period, key⟩ := @Op.revise_same id row e.act
    have number_iff (n : Nat) := @Event.number?_eq_some_iff id e row n found ended
    refine ⟨row, e.act.revise id row,
      { found, left, link, period, key
        outgoing := Op.le_outgoing_revise e.act
        number := fun n handed => ?_
        hands := fun _ asked _ => ⟨row.outgoing, (number_iff _).2 ⟨asked, rfl⟩⟩
        incoming := Op.incoming_revise e.act
        sets := fun window _ asked _ => ?_ }⟩
    · obtain ⟨asked, rfl⟩ := (number_iff n).1 handed
      simp [asked, Op.revise]
    · simp [asked, Op.revise]

/-- In a run that spares a row, the stream numbers that are handed out for it go up, from its counter
on. -/
theorem pairwise_numbers {row : PeriodSecret} (held : v.rows[id]? = some row)
    (spares : ∀ e ∈ log Op.perform ops v, Spares id e) :
    (∀ n ∈ (log Op.perform ops v).filterMap (Event.number? id), row.outgoing ≤ n) ∧
      ((log Op.perform ops v).filterMap (Event.number? id)).Pairwise (· < ·) := by
  induction ops generalizing v row with
  | nil => simp
  | cons op ops ih =>
    rw [log_cons, List.forall_mem_cons] at spares
    obtain ⟨row₀, row', first⟩ := @Spares.forward id v (op :: ops) _ spares.1 List.mem_cons_self
    obtain rfl : row₀ = row := Option.some.inj (first.found.symm.trans held)
    obtain ⟨above, ascending⟩ := ih first.left spares.2
    have later : ∀ n ∈ (log Op.perform ops (op.perform v).2).filterMap (Event.number? id),
        row₀.outgoing ≤ n := fun n mem => Nat.le_trans first.outgoing (above n mem)
    rw [log_cons]
    cases handed : Event.number? id ⟨v, op, (op.perform v).1, (op.perform v).2⟩ with
    | none =>
      rw [List.filterMap_cons_none handed]
      exact ⟨later, ascending⟩
    | some n =>
      obtain ⟨rfl, lt⟩ := first.number n handed
      rw [List.filterMap_cons_some handed, List.forall_mem_cons, List.pairwise_cons]
      exact ⟨⟨Nat.le_refl _, later⟩, fun m mem => Nat.lt_of_lt_of_le lt (above m mem), ascending⟩

/-- What the operations of a run do to the rows. One fails only while writing is switched off, and then it
changes nothing. In a stretch of the run that spares a row, the stream numbers that are handed out for it
go up, its counter never goes down, its link and key stay, and its window changes only when it is set. -/
theorem rows_move_forward (ops : List Op) (v : Vault) :
    (∀ e ∈ log Op.perform ops v, ∀ fault, e.report = .error fault →
        e.before.writable = false ∧ e.after = e.before) ∧
      ∀ (id : PeriodId) (stretch : List Event), stretch <:+: log Op.perform ops v →
        (∀ e ∈ stretch, Spares id e) →
          (∀ e ∈ stretch, ∃ row row', Forward id e row row') ∧
            (stretch.filterMap (Event.number? id)).Pairwise (· < ·) := by
  refine ⟨fun e mem fault failed => ?_, fun id stretch within spares => ⟨fun e mem => ?_, ?_⟩⟩
  · obtain ⟨-, report, after⟩ := of_mem_log mem
    obtain ⟨locked, same⟩ := Op.perform_of_error (report.symm.trans failed)
    exact ⟨locked, after.trans same⟩
  · exact (spares e mem).forward (within.mem mem)
  · obtain ⟨ops', v', rfl⟩ := exists_log_of_infix within
    cases ops' with
    | nil => exact List.Pairwise.nil
    | cons op ops' =>
      obtain ⟨row, held, -⟩ := spares _ List.mem_cons_self
      exact (pairwise_numbers held spares).2

/-- A row of which the counter has come to 2 in the first batch, which repeats its identity. Then numbers
are handed out for it, two operations are refused, and it is added once more, first with a lower counter
and then with a higher one. -/
theorem rows_move_forward_switched_off :
    let id : PeriodId := ⟨⟨1, "tcp"⟩, 5⟩
    let secret (outgoing : Nat) : PeriodSecret := ⟨⟨⟨1, "tcp"⟩, 0, .alice⟩, 5, .wiped, outgoing, .empty⟩
    let ops : List Op := [.add [secret 2, secret 1], .reserve id, .setWritable false, .reserve id,
      .remove [id], .setWritable true, .reserve id, .add [secret 0, secret 7], .setWindow id .empty,
      .reserve id]
    let stretch := (log Op.perform ops Vault.empty).drop 1
    (∀ e ∈ stretch, Spares id e) ∧ stretch.filterMap (Event.number? id) = [2, 3, 7] ∧
      (stretch.filterMap (Event.number? id)).Pairwise (· < ·) ∧
      ∀ e ∈ stretch, ∃ row row', Forward id e row row' := by
  intro id secret ops stretch
  have spares : ∀ e ∈ stretch, Spares id e := by decide +kernel
  obtain ⟨forward, ascending⟩ := (rows_move_forward ops Vault.empty).2 id stretch
    (List.drop_suffix 1 _).isInfix spares
  exact ⟨spares, by decide +kernel, ascending, forward⟩

end SealedStream.Vault
