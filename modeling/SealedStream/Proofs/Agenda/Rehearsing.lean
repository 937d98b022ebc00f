import SealedStream.Proofs.Agenda.Cancelling

/-!
# Rehearsals are runs of moves

Whatever steps are taken on an agenda of scripted jobs, from outside and by the jobs, what becomes of the
agenda is a run of moves. The lines of the log are the jobs that begin to run in it, and the history is what
its moves note. So what holds of all runs of moves holds of rehearsals, and it is told by their own history.

## Main definitions

* `Agenda.Scene.Plays` — a run of moves leads from one scene to another, and gives lines and notes.
* `Agenda.Rehearsal.Follows` — a run of moves leads from one rehearsal to another.
* `Agenda.Rehearsal.CancelsForGood` — what a rehearsal tells of cancelling.

## Main statements

* `Agenda.Rehearsal.follows_perform` — what taking a step comes to.
* `Agenda.Rehearsal.cancelsForGood_foldl` — when steps have been taken.
* `Agenda.cancelling_is_final` — cancelling in runs of moves and in rehearsals.
-/

namespace SealedStream.Agenda

namespace Scene

variable {s t u : Scene Script}

/-- The lines of the log that a run of moves gives: the jobs that begin to run, and when. -/
def lines (told : List (Event Script)) : List (String × Nat) :=
  told.filterMap fun e => e.report.map fun x => (x.2.job.label, e.after.agenda.now)

/-- Some run of moves leads from one scene to another, and gives lines and notes. -/
def Plays (s : Scene Script) (told : List (String × Nat)) (noted : List Note) (t : Scene Script) : Prop :=
  ∃ moves, after moves s = t ∧ lines (log perform moves s) = told ∧ notes (log perform moves s) = noted

theorem log_append (moves moves' : List (Move Script)) (s : Scene Script) :
    log perform (moves ++ moves') s = log perform moves s ++ log perform moves' (after moves s) := by
  induction moves generalizing s with
  | nil => rfl
  | cons move moves ih => rw [List.cons_append, log_cons, ih, log_cons, List.cons_append]; rfl

theorem plays_nil (s : Scene Script) : Plays s [] [] s := ⟨[], rfl, rfl, rfl⟩

theorem Plays.trans {told told' : List (String × Nat)} {noted noted' : List Note}
    (plays : Plays s told noted t) (plays' : Plays t told' noted' u) :
    Plays s (told ++ told') (noted ++ noted') u := by
  obtain ⟨moves, rfl, rfl, rfl⟩ := plays
  obtain ⟨moves', rfl, rfl, rfl⟩ := plays'
  refine ⟨moves ++ moves', List.foldl_append .., ?_, ?_⟩
  · rw [log_append]
    exact List.filterMap_append
  · rw [log_append, notes_append]

theorem plays_move (move : Move Script) (s : Scene Script) :
    Plays s (((perform move s).1.map fun x => (x.2.job.label, (perform move s).2.agenda.now)).toList)
      (note? ⟨s, move, (perform move s).1, (perform move s).2⟩).toList (perform move s).2 := by
  refine ⟨[move], rfl, ?_, ?_⟩
  · simp only [lines, log_cons, log_nil, List.filterMap_cons, List.filterMap_nil]
    cases (perform move s).1 <;> rfl
  · simp only [notes, log_cons, log_nil, List.filterMap_cons, List.filterMap_nil]
    cases note? _ <;> rfl

end Scene

namespace Rehearsal

variable {r r' r'' : Rehearsal} {stack : List (Frame Script)}

/-- Some run of moves leads from the agenda of one rehearsal to that of another and adds to its log and its
history. -/
def Follows (stack : List (Frame Script)) (r r' : Rehearsal) : Prop :=
  ∃ told noted, r'.log = r.log ++ told ∧ r'.history = r.history ++ noted ∧
    Scene.Plays ⟨r.agenda, stack⟩ told noted ⟨r'.agenda, stack⟩

theorem Follows.refl (stack : List (Frame Script)) (r : Rehearsal) : Follows stack r r :=
  ⟨[], [], (List.append_nil _).symm, (List.append_nil _).symm, Scene.plays_nil _⟩

theorem Follows.trans (follows : Follows stack r r') (follows' : Follows stack r' r'') :
    Follows stack r r'' := by
  obtain ⟨told, noted, log, history, plays⟩ := follows
  obtain ⟨told', noted', log', history', plays'⟩ := follows'
  exact ⟨told ++ told', noted ++ noted', by rw [log', log, List.append_assoc],
    by rw [history', history, List.append_assoc], plays.trans plays'⟩

theorem follows_foldl {take : Step → Rehearsal → Rehearsal}
    (follows : ∀ step stack r, Follows stack r (take step r)) (steps : List Step)
    (stack : List (Frame Script)) (r : Rehearsal) :
    Follows stack r (steps.foldl (fun r step => take step r) r) := by
  induction steps generalizing r with
  | nil => exact .refl stack r
  | cons step steps ih => exact (follows step stack r).trans (ih (take step r))

/-- A scripted job writes its line and takes its steps, or none of them. -/
theorem follows_runScript {take : Step → Rehearsal → Rehearsal}
    (follows : ∀ step stack r, Follows stack r (take step r)) (id : Nat) (job : Script)
    (stack : List (Frame Script)) (r : Rehearsal) :
    ∃ logged, logged.agenda = r.agenda ∧ logged.log = r.log ++ [(job.label, r.agenda.now)] ∧
      logged.history = r.history ++ [.began id] ∧ Follows stack logged (runScript take id job r) := by
  let logged : Rehearsal :=
    { r with
      log := r.log ++ [(job.label, r.agenda.now)]
      runs := r.runs.insert id ((r.runs[id]?).getD 0 + 1)
      history := r.history ++ [.began id] }
  refine ⟨logged, rfl, rfl, rfl, ?_⟩
  unfold runScript
  cases job.only with
  | none => exact follows_foldl follows job.steps stack logged
  | some only =>
    simp only
    split
    · exact follows_foldl follows job.steps stack logged
    · exact .refl stack logged

theorem runEntry_host (take : Step → Rehearsal → Rehearsal) (due : Due) (entry : Entry Script)
    (r : Rehearsal) : (host take).runEntry due entry r =
      (host take).modifyAgenda (land due entry)
        (runScript take due.id entry.job ((host take).modifyAgenda (launch due entry) r)) := by
  unfold Host.runEntry launch land
  cases entry.every <;> rfl

/-- Running the next job that is due is to start it, what it does, and to leave it. -/
theorem follows_runEntry {take : Step → Rehearsal → Rehearsal}
    (follows : ∀ step stack r, Follows stack r (take step r)) {target : Nat} {due : Due}
    {entry : Entry Script} {rest : Agenda Script}
    (next : r.agenda.popDue? target = some (due, entry, rest)) :
    Follows (.advance target :: stack) r
      ((host take).runEntry due entry { r with agenda := rest.reach due.time }) := by
  rw [runEntry_host]
  obtain ⟨logged, agenda, log, history, told, noted, log', history', does⟩ :=
    follows_runScript follows due.id entry.job
    (.job due entry :: .advance target :: stack)
    ((host take).modifyAgenda (launch due entry) { r with agenda := rest.reach due.time })
  generalize runScript take due.id entry.job _ = ran at log' history' does ⊢
  have starts := Scene.plays_move .start ⟨r.agenda, .advance target :: stack⟩
  have leaves := Scene.plays_move .leave ⟨ran.agenda, .job due entry :: .advance target :: stack⟩
  simp only [Scene.perform, next, Scene.note?, Option.map_some, Option.toList_some, Option.map_none,
    Option.toList_none] at starts leaves
  rw [agenda] at does
  refine ⟨_, _, ?_, ?_, (starts.trans does).trans leaves⟩
  · rw [List.append_nil, ← List.append_assoc]
    exact log'.trans (congrArg (· ++ told) log)
  · rw [List.append_nil, ← List.append_assoc]
    exact history'.trans (congrArg (· ++ noted) history)

theorem follows_drain {take : Step → Rehearsal → Rehearsal}
    (follows : ∀ step stack r, Follows stack r (take step r)) (fuel target : Nat)
    (stack : List (Frame Script)) (r : Rehearsal) :
    Follows (.advance target :: stack) r ((host take).drain fuel target r) := by
  induction fuel generalizing r with
  | zero => exact .refl _ r
  | succ fuel ih =>
    unfold Host.drain
    split
    · exact .refl _ r
    · rename_i due entry rest next
      exact (follows_runEntry follows next).trans (ih _)

theorem follows_advanceTo {take : Step → Rehearsal → Rehearsal}
    (follows : ∀ step stack r, Follows stack r (take step r)) (fuel ms : Nat)
    (stack : List (Frame Script)) (r : Rehearsal) :
    Follows stack r ((host take).advanceTo fuel (r.agenda.now + Count.wrap ms) r) := by
  obtain ⟨told, noted, log, history, drains⟩ :=
    follows_drain follows fuel (r.agenda.now + Count.wrap ms) stack r
  have begins : Scene.Plays ⟨r.agenda, stack⟩ [] []
    ⟨r.agenda, .advance (r.agenda.now + Count.wrap ms) :: stack⟩ := Scene.plays_move (.advance ms) _
  have leaves (a : Agenda Script) (target : Nat) :
    Scene.Plays ⟨a, .advance target :: stack⟩ [] [] ⟨a.reach target, stack⟩ := Scene.plays_move .leave _
  have plays := (begins.trans drains).trans (leaves _ _)
  simp only [List.nil_append, List.append_nil] at plays
  exact ⟨told, noted, log, history, plays⟩

/-- Taking a step is a run of moves, whatever is going on. -/
theorem follows_perform (fuel : Nat) (step : Step) (stack : List (Frame Script)) (r : Rehearsal) :
    Follows stack r (perform fuel step r) := by
  induction fuel generalizing step stack r with
  | zero => exact .refl stack r
  | succ fuel ih =>
    have onAgenda {a : Agenda Script} {note : Option Note} (move : Move Script)
        (made : Scene.perform move ⟨r.agenda, stack⟩ = (none, ⟨a, stack⟩))
        (notes : Scene.note? ⟨⟨r.agenda, stack⟩, move, none, ⟨a, stack⟩⟩ = note) :
        Follows stack r { r with agenda := a, history := r.history ++ note.toList } := by
      have plays := Scene.plays_move move ⟨r.agenda, stack⟩
      rw [made, notes] at plays
      exact ⟨[], _, (List.append_nil _).symm, rfl, plays⟩
    have same : ({ r with history := r.history ++ [] } : Rehearsal) = r := by
      rw [List.append_nil]
    cases step with
    | once label delay steps => exact onAgenda (.enter delay none ⟨label, steps, none⟩) rfl rfl
    | every label delay period steps only =>
      exact onAgenda (.enter delay (some period) ⟨label, steps, only⟩) rfl rfl
    | cancel id => exact onAgenda (.cancel id) rfl rfl
    | advance ms =>
      simp only [perform, note?, Option.toList_none, same]
      exact follows_advanceTo ih fuel ms stack r
    | runDue =>
      simp only [perform, note?, Option.toList_none, same]
      exact follows_advanceTo ih fuel 0 stack r
    | setClock now => exact onAgenda (.setClock now) rfl rfl
    | moveClock ms => exact onAgenda (.moveClock ms) rfl rfl

/-- The steps that are taken from outside are a run of moves in which nothing is left going on. -/
theorem exists_moves (fuel now : Nat) (steps : List Step) :
    let r := steps.foldl (fun r step => perform fuel step r) (startingAt now)
    ∃ moves, Scene.after moves (Scene.startingAt now) = ⟨r.agenda, []⟩ ∧
      Scene.lines (SealedStream.log Scene.perform moves (Scene.startingAt now)) = r.log ∧
      Scene.notes (SealedStream.log Scene.perform moves (Scene.startingAt now)) = r.history := by
  obtain ⟨told, noted, log, history, moves, after, lines, notes⟩ :=
    follows_foldl (follows_perform fuel) steps [] (startingAt now)
  exact ⟨moves, after, lines.trans (log.trans (List.nil_append _)).symm,
    notes.trans (history.trans (List.nil_append _)).symm⟩

/-- What a rehearsal tells of cancelling while no job is being run. -/
structure CancelsForGood (r : Rehearsal) : Prop where
  /-- A job does not begin to run any more after it was cancelled. -/
  final : ∀ front id rest, r.history = front ++ .cancelled id :: rest →
    (∃ repeats, .entered id repeats ∈ front) → .began id ∉ rest
  /-- Those jobs are queued that were entered and not cancelled since then, apart from those that run once
  and have begun to. -/
  queued_iff : ∀ id repeats, (∃ x ∈ r.agenda.entries, x.1.id = id ∧ x.2.every.isSome = repeats) ↔
    Awaited r.history id repeats
  /-- No two of them have the same number, and no job is noted or marked. -/
  atRest : r.agenda.AtRest

/-- When steps have been taken, what was cancelled is cancelled for good. -/
theorem cancelsForGood_foldl (fuel now : Nat) (steps : List Step) :
    (steps.foldl (fun r step => perform fuel step r) (startingAt now)).CancelsForGood := by
  obtain ⟨moves, after, -, notes⟩ := exists_moves fuel now steps
  generalize steps.foldl _ _ = r at after notes ⊢
  have start : (Scene.startingAt now : Scene Script).Sound := Scene.sound_startingAt now
  have sound := Scene.sound_after moves start
  have tells := (Scene.tells_startingAt now).after start moves
  rw [after] at sound
  rw [List.nil_append, after, notes] at tells
  refine ⟨fun front id rest eq => ?_, fun id repeats => ?_, sound.atRest rfl⟩
  · exact Scene.began_not_mem (notes.trans eq)
  · rw [tells.awaited_iff, Scene.Waits]
    exact (or_iff_left fun waits => by simpa [Scene.jobs] using waits.2.2).symm

/-- When a job is cancelled, by whomever, nothing about the others changes. -/
theorem perform_cancel (fuel id : Nat) (r : Rehearsal) :
    perform (fuel + 1) (.cancel id) r =
      { r with agenda := r.agenda.cancel id, history := r.history ++ [.cancelled id] } := rfl

end Rehearsal

/-- Whatever is entered, cancelled and run, from outside and by the jobs themselves, jobs that are
cancelled do not run again, other jobs are spared, and nothing is left behind. This holds of all runs of
moves, and of the steps of scripted jobs: their own history tells what was cancelled and what ran. Whoever
cancels a job, and whenever, nothing about the other jobs changes. -/
theorem cancelling_is_final (fuel now : Nat) :
    (∀ (τ : Type) (moves : List (Move τ)),
      Scene.CancelsForGood (log Scene.perform moves (Scene.startingAt now))) ∧
    (∀ steps : List Step, (steps.foldl (fun r step => Rehearsal.perform fuel step r)
      (Rehearsal.startingAt now)).CancelsForGood) ∧
    ∀ (id : Nat) (r : Rehearsal), ∃ a, SameBut id r.agenda a ∧
      Rehearsal.perform (fuel + 1) (.cancel id) r =
        { r with agenda := a, history := r.history ++ [.cancelled id] } :=
  ⟨fun _ moves => Scene.cancelsForGood_log now moves, Rehearsal.cancelsForGood_foldl fuel now,
    fun id r => ⟨_, sameBut_cancel id r.agenda, Rehearsal.perform_cancel fuel id r⟩⟩

end SealedStream.Agenda
