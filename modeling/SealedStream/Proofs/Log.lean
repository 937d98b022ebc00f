/-!
# Logs of runs

A machine performs acts one after the other. Each act finds it in a state, hands something out, and
leaves it in a state; the log of a run tells all three for every act.

## Main definitions

* `Log.Entry`, `log` — what is told of one act, and of all acts of a run.

## Main statements

* `invariant_of_log` — what every act preserves holds throughout.
* `history_of_log` — the same for what is told of a state together with its past.
* `pairwise_log` — entries are related to those before them if each of these left a mark that stays.
-/

namespace SealedStream

/-- One act of a run: the state it found, what it handed out, and the state it left. -/
structure Log.Entry (σ α ρ : Type) where
  before : σ
  act : α
  report : ρ
  after : σ

variable {σ α ρ : Type} {perform : α → σ → ρ × σ}

/-- The acts of a run from a state, in order. -/
def log (perform : α → σ → ρ × σ) : List α → σ → List (Log.Entry σ α ρ)
  | [], _ => []
  | act :: acts, s =>
    let (report, t) := perform act s
    ⟨s, act, report, t⟩ :: log perform acts t

@[simp] theorem log_nil (s : σ) : log perform [] s = [] := rfl

@[simp] theorem log_cons (act : α) (acts : List α) (s : σ) :
    log perform (act :: acts) s =
      ⟨s, act, (perform act s).1, (perform act s).2⟩ :: log perform acts (perform act s).2 := rfl

/-- An entry tells of an act that was performed. -/
theorem of_mem_log {acts : List α} {s : σ} {e : Log.Entry σ α ρ} (mem : e ∈ log perform acts s) :
    e.act ∈ acts ∧ e.report = (perform e.act e.before).1 ∧ e.after = (perform e.act e.before).2 := by
  induction acts generalizing s with
  | nil => simp at mem
  | cons act acts ih =>
    rcases List.mem_cons.1 mem with rfl | mem
    · exact ⟨List.mem_cons_self, rfl, rfl⟩
    · exact (ih mem).imp_left (List.mem_cons_of_mem act)

/-- What follows an entry is the log of a run from the state that it left. -/
theorem exists_log_of_log {acts : List α} {s : σ} {front rest : List (Log.Entry σ α ρ)}
    {e : Log.Entry σ α ρ} (eq : log perform acts s = front ++ e :: rest) :
    ∃ later, rest = log perform later e.after := by
  induction acts generalizing s front with
  | nil => simp at eq
  | cons act acts ih =>
    rw [log_cons] at eq
    cases front with
    | nil =>
      obtain ⟨rfl, rfl⟩ := List.cons.inj eq
      exact ⟨acts, rfl⟩
    | cons first front => exact ih (List.cons.inj eq).2

theorem log_take (n : Nat) (acts : List α) (s : σ) :
    log perform (acts.take n) s = (log perform acts s).take n := by
  induction acts generalizing n s with
  | nil => simp
  | cons act acts ih =>
    cases n with
    | zero => rfl
    | succ n => simp [ih]

/-- A stretch of a log is the log of a run from the state in which it begins. -/
theorem exists_log_of_infix {acts : List α} {s : σ} {stretch : List (Log.Entry σ α ρ)}
    (within : stretch <:+: log perform acts s) :
    ∃ acts' s', stretch = log perform acts' s' := by
  obtain ⟨front, rest, eq⟩ := within
  induction front generalizing acts s with
  | nil =>
    refine ⟨acts.take stretch.length, s, ?_⟩
    rw [log_take, ← eq, List.nil_append, List.take_left]
  | cons e front ih =>
    cases acts with
    | nil => simp at eq
    | cons act acts =>
      simp only [List.cons_append, log_cons, List.cons.injEq] at eq
      exact ih eq.2

/-- What holds at first and is preserved by every act holds before and after every act. -/
theorem invariant_of_log {acts : List α} {s : σ} (inv : σ → Prop) (start : inv s)
    (step : ∀ e ∈ log perform acts s, inv e.before → inv e.after) :
    ∀ e ∈ log perform acts s, inv e.before ∧ inv e.after := by
  induction acts generalizing s with
  | nil => simp
  | cons act acts ih =>
    rw [log_cons, List.forall_mem_cons] at step ⊢
    exact ⟨⟨start, step.1 start⟩, ih (step.1 start) step.2⟩

/-- What is told of a state and of what came before it, and is kept up by every act, is told of the state
that each act finds. -/
theorem history_of_log {acts : List α} {s : σ} (inv : List (Log.Entry σ α ρ) → σ → Prop)
    {past : List (Log.Entry σ α ρ)} (start : inv past s)
    (step : ∀ past, ∀ e ∈ log perform acts s, inv past e.before → inv (past ++ [e]) e.after)
    {front rest : List (Log.Entry σ α ρ)} {e : Log.Entry σ α ρ}
    (eq : log perform acts s = front ++ e :: rest) : inv (past ++ front) e.before := by
  induction acts generalizing past s front with
  | nil => simp at eq
  | cons act acts ih =>
    rw [log_cons] at step eq
    cases front with
    | nil =>
      obtain ⟨rfl, -⟩ := List.cons.inj eq
      rw [List.append_nil]
      exact start
    | cons first front =>
      obtain ⟨rfl, eq'⟩ := List.cons.inj eq
      have later := ih (step past _ List.mem_cons_self start)
        (fun past e mem => step past e (List.mem_cons_of_mem _ mem)) eq'
      rwa [List.append_assoc] at later

/-- Every entry is related to all those before it if an entry leaves a mark on the state that no act
takes away, and each act is related to whatever left the marks that it finds. -/
theorem pairwise_log {acts : List α} {s : σ} {R : Log.Entry σ α ρ → Log.Entry σ α ρ → Prop}
    (inv : σ → Prop) (mark : Log.Entry σ α ρ → σ → Prop) (start : inv s)
    (step : ∀ e ∈ log perform acts s, inv e.before → inv e.after ∧ mark e e.after ∧
      ∀ past, mark past e.before → R past e ∧ mark past e.after) :
    (∀ past, mark past s → ∀ e ∈ log perform acts s, R past e) ∧
      (log perform acts s).Pairwise R := by
  induction acts generalizing s with
  | nil => simp
  | cons act acts ih =>
    rw [log_cons, List.forall_mem_cons] at step
    obtain ⟨⟨inv', own, others⟩, later⟩ := And.intro (step.1 start) step.2
    obtain ⟨rest, pairwise⟩ := ih inv' later
    rw [log_cons, List.pairwise_cons]
    refine ⟨?_, rest _ own, pairwise⟩
    intro past marked
    exact List.forall_mem_cons.2 ⟨(others past marked).1, rest past (others past marked).2⟩

end SealedStream
