import SealedStream.Proofs.Bare
import SealedStream.Proofs.Peer.Run
import SealedStream.Proofs.Station.Abreast

/-!
# Checks on time

The checks of a running keyring fall due at a fixed step, counted from its start, and however much time
goes by at once, each of them is run when the clock reads its time. What a pair holds is therefore told
by the clock: the periods that were live at the last of these times, or at the enrollment of the pair if
that was later.

The step is the interval that was asked for, as long as that is a count of milliseconds and not zero.

The next check is always on the agenda. When its time is no count any more, the program stops, although
the clock has not come that far.

## Main definitions

* `Settings.step` — how far apart the checks are.
* `Station.OnTime` — all checks until now were run, and the next one waits.
* `Peer.Act.Keeps` — time goes by, a link is enrolled, or a stream is opened or answered.
* `Peer.lastEnrolled` — when a pair was enrolled.

## Main statements

* `Station.OnTime.next` — what a check leaves that falls due.
* `Peer.follows_clock` — what a pair holds is told by the clock.
-/

namespace SealedStream

open Std

/-- How far apart the checks of a keyring are, in milliseconds. Of the interval that was asked for, the
low 64 bits count. -/
def Settings.step (settings : Settings) : Nat := max (Count.wrap (max settings.checkInterval 1)) 1

theorem Settings.step_pos (settings : Settings) : 0 < settings.step := by
  unfold step
  omega

theorem Settings.step_eq_iff {settings : Settings} : settings.step = settings.checkInterval ↔
    1 ≤ settings.checkInterval ∧ settings.checkInterval ≤ Count.top := by
  unfold step Count.wrap Count.top
  omega

variable {suite : Suite} {origin : Pair → Origin} {latency : Transport → Nat} {settings : Settings}
  {start : Nat} {enrolled : Pair → Option Nat} {rounds : Nat}

namespace Station

variable {s t : Station}

/-- The keyring was started at `start`. The checks of `rounds` times have been run, counting `start`
itself, and the next one is the only job on the agenda. -/
structure OnTime (suite : Suite) (origin : Pair → Origin) (latency : Transport → Nat)
    (settings : Settings) (start : Nat) (enrolled : Pair → Option Nat) (rounds : Nat) (s : Station) :
    Prop where
  abreast : Abreast suite origin latency settings.tolerance enrolled
    (start + (rounds - 1) * settings.step) s.post.agenda.now s.core
  running : s.keyring.running = true
  waiting : ∃ id, s.post.agenda.entries = [(⟨start + rounds * settings.step, id⟩,
    ⟨.check s.keyring.serial, some (Count.wrap (max settings.checkInterval 1))⟩)]
  uncancelled : ∀ id, id ∉ s.post.agenda.cancelled
  overflowed_iff : s.post.agenda.overflowed = true ↔ Count.top < start + rounds * settings.step
  ahead : s.post.agenda.now < start + rounds * settings.step ∨
    rounds = 0 ∧ s.post.agenda.now = start ∧ settings.step ≠ settings.checkInterval

namespace OnTime

/-- The last check was at the last step that the clock has reached. -/
theorem mark_eq (onTime : OnTime suite origin latency settings start enrolled rounds s) :
    start + (rounds - 1) * settings.step =
      start + settings.step * ((s.post.agenda.now - start) / settings.step) := by
  have le := onTime.abreast.mark_le
  rcases onTime.ahead with lt | ⟨rfl, now, -⟩
  · cases rounds with
    | zero => omega
    | succ rounds =>
      rw [Nat.add_sub_cancel] at le ⊢
      have passed : (s.post.agenda.now - start) / settings.step = rounds :=
        Nat.div_eq_of_lt_le (by omega) (by omega)
      rw [passed, Nat.mul_comm]
  · rw [now]
    simp

/-- The next check is a step after that. -/
theorem next_eq (onTime : OnTime suite origin latency settings start enrolled rounds s)
    (positive : 0 < rounds) : start + rounds * settings.step =
      start + settings.step * ((s.post.agenda.now - start) / settings.step + 1) := by
  obtain ⟨before, rfl⟩ := Nat.exists_eq_add_one_of_ne_zero positive.ne'
  have mark := onTime.mark_eq
  rw [Nat.add_sub_cancel] at mark
  rw [Nat.add_mul, Nat.one_mul, ← Nat.add_assoc, mark, Nat.mul_succ, Nat.add_assoc]

/-- The program stops if the next check is at no count. If the step is not what was asked for, the first
check may be less than a step ahead. -/
theorem overflowed (onTime : OnTime suite origin latency settings start enrolled rounds s) :
    let next := start + settings.step * ((s.post.agenda.now - start) / settings.step + 1)
    (s.post.agenda.overflowed = true → Count.top < next) ∧
      (settings.step = settings.checkInterval →
        (s.post.agenda.overflowed = true ↔ Count.top < next)) := by
  intro next
  rw [onTime.overflowed_iff]
  rcases Nat.eq_zero_or_pos rounds with rfl | positive
  · rcases onTime.ahead with lt | ⟨-, now, unlike⟩
    · have := onTime.abreast.mark_le
      omega
    · refine ⟨fun exceeds => ?_, fun like => absurd like unlike⟩
      rw [Nat.zero_mul, Nat.add_zero] at exceeds
      exact exceeds.trans_le (Nat.le_add_right ..)
  · rw [onTime.next_eq positive]
    exact ⟨id, fun _ => Iff.rfl⟩

/-- An act that leaves the duty as it is. -/
theorem of_duty (onTime : OnTime suite origin latency settings start enrolled rounds s)
    {enrolled' : Pair → Option Nat} (same : t.duty = s.duty)
    (abreast : Abreast suite origin latency settings.tolerance enrolled'
      (start + (rounds - 1) * settings.step) s.post.agenda.now t.core) :
    OnTime suite origin latency settings start enrolled' rounds t := by
  have agenda : t.post.agenda = s.post.agenda := congrArg Duty.agenda same
  have serial : t.keyring.serial = s.keyring.serial := congrArg Duty.serial same
  have running : t.keyring.running = s.keyring.running := congrArg Duty.running same
  rw [← agenda] at abreast
  exact ⟨abreast, running.trans onTime.running, agenda ▸ serial ▸ onTime.waiting,
    agenda ▸ onTime.uncancelled, agenda ▸ onTime.overflowed_iff, agenda ▸ onTime.ahead⟩

/-- A check that the agenda wakes its own keyring for begins, is made, and waits for the next time. -/
theorem runEntry_check {due : Due} {period : Nat} :
    s.runEntry suite due ⟨.check s.keyring.serial, some period⟩ =
      ((s.onAgenda (.begin due.id)).check suite).onAgenda
        (.finish due ⟨.check s.keyring.serial, some period⟩ period) := by
  rw [← show (s.onAgenda (.begin due.id)).wake suite (.check s.keyring.serial) =
    (s.onAgenda (.begin due.id)).check suite from if_pos rfl]
  rfl

/-- The check that falls due is run when the clock reads its time, and waits for the next one. -/
theorem next (onTime : OnTime suite origin latency settings start enrolled rounds s) {target : Nat}
    {due : Due} {entry : Entry Job} {rest : Agenda Job}
    (ample : Ample origin settings.tolerance (fun transport l => l = latency transport) target)
    (next : s.post.agenda.popDue? target = some (due, entry, rest)) :
    OnTime suite origin latency settings start enrolled (rounds + 1)
        ((s.onAgenda fun _ => rest.reach due.time).runEntry suite due entry) ∧
      ((s.onAgenda fun _ => rest.reach due.time).runEntry suite due entry).post.agenda.now ≤ target := by
  obtain ⟨reached, entries, rest_eq⟩ := Agenda.of_popDue?_eq_some next
  obtain ⟨id, waiting⟩ := onTime.waiting
  obtain ⟨first, none⟩ := List.cons.inj (waiting.symm.trans entries)
  cases first
  let time := start + rounds * settings.step
  replace reached : time ≤ target := reached
  have soon : s.post.agenda.now ≤ time := by
    rcases onTime.ahead with lt | ⟨rfl, now, -⟩
    · exact lt.le
    · omega
  -- The check finds the clock at its time.
  let found := (s.onAgenda fun _ => rest.reach time).onAgenda (.begin id)
  have clock : found.post.agenda.now = time := by
    change max rest.now time = time
    rw [rest_eq]
    exact max_eq_right soon
  have abreast : Abreast suite origin latency settings.tolerance enrolled time time
      (found.check suite).core := by
    have before : Abreast suite origin latency settings.tolerance enrolled _ found.post.agenda.now
      found.core := onTime.abreast.later (clock ▸ soon)
    rw [← clock]
    exact before.check (clock ▸ ample.mono reached) onTime.running
  have same : (found.check suite).duty = found.duty := duty_check
  have agenda : (found.check suite).post.agenda = found.post.agenda := congrArg Duty.agenda same
  have uncancelled : ∀ id, id ∉ found.post.agenda.cancelled := by
    change ∀ id, id ∉ rest.cancelled
    rw [rest_eq]
    exact onTime.uncancelled
  have later : time + settings.step = start + (rounds + 1) * settings.step := by
    rw [Nat.add_mul, Nat.one_mul, ← Nat.add_assoc]
  have ran (period : Nat) : (s.onAgenda fun _ => rest.reach time).runEntry suite ⟨time, id⟩
      ⟨.check s.keyring.serial, some period⟩ = (found.check suite).onAgenda
        (.finish ⟨time, id⟩ ⟨.check s.keyring.serial, some period⟩ period) := runEntry_check
  rw [ran]
  refine ⟨⟨?_, ?_, ⟨id, ?_⟩, ?_, ?_, .inl ?_⟩, ?_⟩
  · rw [Nat.add_sub_cancel]
    change Abreast _ _ _ _ _ time (Agenda.finish _ _ _ _).now _
    rw [Agenda.now_finish, agenda, clock]
    exact abreast
  · exact (congrArg Duty.running same).trans onTime.running
  · change (Agenda.finish _ _ _ (found.check suite).post.agenda).entries = _
    have serial : (found.check suite).keyring.serial = s.keyring.serial := congrArg Duty.serial same
    rw [Agenda.entries_finish_of_nil (agenda ▸ none.symm) (agenda ▸ uncancelled id), ← later,
      keyring_onAgenda, serial]
    rfl
  · change ∀ id, id ∉ (Agenda.finish _ _ _ (found.check suite).post.agenda).cancelled
    rw [agenda, Agenda.finish, if_neg (uncancelled id)]
    exact uncancelled
  · -- The check was queued for its time before, so only the next one can be too great first.
    have before : found.post.agenda.overflowed = true ↔ Count.top < time := by
      change (rest.reach time).overflowed = true ↔ _
      rw [Agenda.overflowed_reach, rest_eq, onTime.overflowed_iff, or_self]
    change (Agenda.finish _ _ _ (found.check suite).post.agenda).overflowed = true ↔ _
    rw [Agenda.overflowed_finish, agenda, before, ← later, and_iff_right (uncancelled id)]
    change _ ∨ Count.top < time + settings.step ↔ _
    omega
  · change (Agenda.finish _ _ _ (found.check suite).post.agenda).now < _
    rw [Agenda.now_finish, agenda, clock, Nat.add_mul]
    have := settings.step_pos
    omega
  · change (Agenda.finish _ _ _ (found.check suite).post.agenda).now ≤ _
    rw [Agenda.now_finish, agenda, clock]
    exact reached

end OnTime

end Station

namespace Peer

variable {p : Peer} {s : Station}

/-- Time goes by, a link of its pair's origin is enrolled, or a stream is opened or answered. -/
def Act.Keeps (origin : Pair → Origin) (latency : Transport → Nat) : Act → Prop
  | .call (.enroll link l handshake) =>
    (Station.Act.enroll link l handshake).Follows origin fun transport l => l = latency transport
  | .call (.issue _) | .call (.recognize _) | .advance _ => True
  | _ => False

/-- The reading of the clock at which an act enrolls a pair. -/
def Act.enrolledAt (now : Nat) (pair : Pair) : Act → Option Nat
  | .call (.enroll link _ _) => if pair = link.toPair then some now else none
  | _ => none

/-- How far an act moves the clock on. -/
def Act.elapsed : Act → Nat
  | .advance ms => Count.wrap ms
  | _ => 0

/-- How far a run moves the clock on. -/
def elapsed (acts : List Act) : Nat := (acts.map Act.elapsed).sum

/-- The reading of the clock when a pair was last enrolled in a run, which begins at `now`. -/
def lastEnrolled (now : Nat) : List Act → Pair → Option Nat
  | [], _ => none
  | act :: acts, pair => (lastEnrolled (now + act.elapsed) acts pair).or (act.enrolledAt now pair)

/-! ## The clock -/

/-- A call that keeps the clock running leaves the agenda alone. -/
theorem agenda_call {act : Station.Act} (keeps : Act.Keeps origin latency (.call act)) :
    (p.perform suite (.call act)).post.agenda = p.post.agenda := by
  cases there : p.station? with
  | none => rw [perform, alter, there]
  | some s =>
    have after : (p.perform suite (.call act)).station? = some (act.perform suite s).2 := by
      rw [perform, station?_alter, there, Option.map_some]
    rw [post_eq after, post_eq there]
    have same := Station.duty_perform suite act s
    cases act with
    | enroll | issue | recognize => exact congrArg Station.Duty.agenda same
    | _ => exact keeps.elim

/-- While jobs run, the clock does not go back, and not past the time that has come. -/
theorem now_drain {fuel target : Nat} (le : p.post.agenda.now ≤ target) :
    p.post.agenda.now ≤ ((host suite).drain fuel target p).post.agenda.now ∧
      ((host suite).drain fuel target p).post.agenda.now ≤ target := by
  refine Host.drain_induction (fun q : Peer => p.post.agenda.now ≤ q.post.agenda.now ∧
    q.post.agenda.now ≤ target) (fun q due entry rest ⟨ge, le⟩ next => ?_) ⟨le_rfl, le⟩
  obtain ⟨reached, -, rest_eq⟩ := Agenda.of_popDue?_eq_some next
  have kept : rest.now = q.post.agenda.now := by rw [rest_eq]; rfl
  have clock : ((host suite).runEntry due entry
      ((host suite).setAgenda (rest.reach due.time) q)).post.agenda.now =
        max q.post.agenda.now due.time := by
    rw [← kept]
    change ((host suite).agenda _).now = _
    rw [calm_host.agenda_runEntry, calm_host.agenda_setAgenda]
    cases entry.every with
    | none => rfl
    | some period => rw [Option.elim_some, Agenda.now_finish]; rfl
  rw [clock]
  exact ⟨ge.trans (le_max_left ..), max_le le reached⟩

theorem now_advance (ms : Nat) :
    (p.advance suite ms).post.agenda.now = p.post.agenda.now + Count.wrap ms :=
  max_eq_right (now_drain (Nat.le_add_right ..)).2

theorem now_perform {act : Act} (keeps : act.Keeps origin latency) :
    (p.perform suite act).post.agenda.now = p.post.agenda.now + act.elapsed := by
  cases act with
  | call act =>
    rw [agenda_call keeps]
    rfl
  | advance ms => exact now_advance ms
  | _ => exact keeps.elim

theorem now_run {acts : List Act} (keeps : ∀ act ∈ acts, act.Keeps origin latency) :
    (p.run suite acts).post.agenda.now = p.post.agenda.now + elapsed acts := by
  induction acts generalizing p with
  | nil => rfl
  | cons act acts ih =>
    rw [List.forall_mem_cons] at keeps
    have rest := @ih (p.perform suite act) keeps.2
    rw [now_perform keeps.1, Nat.add_assoc] at rest
    exact rest

/-! ## Runs -/

/-- The checks of the keyring are on time. -/
def OnTime (suite : Suite) (origin : Pair → Origin) (latency : Transport → Nat) (settings : Settings)
    (start : Nat) (enrolled : Pair → Option Nat) (p : Peer) : Prop :=
  ∃ s rounds, p.station? = some s ∧ s.OnTime suite origin latency settings start enrolled rounds

/-- However much time goes by at once, every check on the way is run at its time. -/
theorem OnTime.advance {ms : Nat} (onTime : p.OnTime suite origin latency settings start enrolled)
    (ample : Station.Ample origin settings.tolerance (fun transport l => l = latency transport)
      (p.post.agenda.now + Count.wrap ms)) :
    (p.advance suite ms).OnTime suite origin latency settings start enrolled := by
  obtain ⟨s, rounds, there, onTime⟩ := onTime
  let target := p.post.agenda.now + Count.wrap ms
  have le : s.post.agenda.now ≤ target := post_eq there ▸ Nat.le_add_right ..
  obtain ⟨t, rounds', there', onTime', le'⟩ := Host.drain_induction (h := host suite)
    (fun q : Peer => ∃ t rounds, q.station? = some t ∧
      t.OnTime suite origin latency settings start enrolled rounds ∧ t.post.agenda.now ≤ target)
    (fun q due entry rest ⟨t, rounds, there, onTime, _⟩ next => by
      change q.post.agenda.popDue? target = some (due, entry, rest) at next
      rw [post_eq there] at next
      obtain ⟨next, le⟩ := onTime.next ample next
      exact ⟨_, _, station?_next there, next, le⟩)
    ⟨s, rounds, there, onTime, le⟩
  obtain ⟨id, waiting⟩ := onTime'.waiting
  have late : target < start + rounds' * settings.step :=
    late_of_drained there' _ (waiting ▸ List.mem_singleton_self _)
  have reached : max t.post.agenda.now target = target := max_eq_right le'
  refine ⟨t.onAgenda (.reach target), rounds', ?_, ?_, onTime'.running, onTime'.waiting,
    onTime'.uncancelled, ?_, .inl (reached.trans_lt late)⟩
  · rw [@station?_advance suite p ms target rfl, there', Option.map_some]
  · exact onTime'.abreast.later (le_max_left ..)
  · change (t.post.agenda.reach target).overflowed = true ↔ _
    rw [Agenda.overflowed_reach, onTime'.overflowed_iff]
    omega

theorem OnTime.perform {act : Act} (onTime : p.OnTime suite origin latency settings start enrolled)
    (keeps : act.Keeps origin latency)
    (ready : ∀ link l handshake, act = .call (.enroll link l handshake) →
      link.epoch ≤ p.post.agenda.now)
    (ample : Station.Ample origin settings.tolerance (fun transport l => l = latency transport)
      (p.post.agenda.now + act.elapsed)) :
    (p.perform suite act).OnTime suite origin latency settings start
      fun pair => (act.enrolledAt p.post.agenda.now pair).or (enrolled pair) := by
  cases act with
  | advance ms => exact onTime.advance ample
  | call act =>
    obtain ⟨s, rounds, there, onTime⟩ := onTime
    rw [post_eq there] at ample ready ⊢
    have duty := Station.duty_perform suite act s
    have effect : Station.Effect suite _ s act _ _ := Station.effect_act act s
    refine ⟨(act.perform suite s).2, rounds, ?_, ?_⟩
    · rw [Peer.perform, station?_alter, there, Option.map_some]
    cases act with
    | enroll link l handshake =>
      have abreast := onTime.abreast.enroll ample keeps (ready _ _ _ rfl)
      refine onTime.of_duty duty ?_
      convert abreast using 2
      rename_i pair
      simp only [Act.enrolledAt]
      split <;> rfl
    | issue pair =>
      exact onTime.of_duty duty (onTime.abreast.of_held ample effect trivial effect.held_of_issue)
    | recognize bytes =>
      exact onTime.of_duty duty (onTime.abreast.of_held ample effect trivial effect.held_of_recognize)
    | _ => exact keeps.elim
  | _ => exact keeps.elim

theorem now_started {vault : GuardedVault} :
    ((begin vault start settings).perform suite (.call .start)).post.agenda.now = start := by
  have duty := Station.duty_perform suite .start ⟨.stopped settings 0, postAt vault start⟩
  rcases duty with same | ⟨-, attached⟩
  · exact congrArg (·.agenda.now) same
  · exact congrArg (·.agenda.now) attached

theorem plan_of_blank {c : Station.Core} (blank : c.vault.rows = ∅) (now : Nat) :
    Rollover.plan suite now c.vault.latencies c.tolerance c.vault.rows.values = .ok .empty := by
  rw [show c.vault.rows.values = [] by rw [blank]; rfl, Rollover.plan_nil]

/-- A start from a vault without secrets leaves nothing held. -/
theorem abreast_started {s : Station} {c : Station.Core} (blank : s.core.vault.rows = ∅)
    (sound : Station.Sound suite origin (fun transport l => l = latency transport) s.core)
    (backed : Station.Backed s.core) (smooth : s.core.Smooth)
    (ample : Station.Ample origin s.core.tolerance (fun transport l => l = latency transport) start)
    (effect : Station.Effect suite start s .start .done c) :
    Station.Abreast suite origin latency s.core.tolerance (fun _ => none) start start c := by
  have follows : Station.Act.start.Follows origin fun transport l => l = latency transport := trivial
  have held : c.held = ∅ := by
    cases effect with
    | rotated _ _ _ rolls => simp at rolls
    | started plans =>
      cases (plan_of_blank blank start).symm.trans plans
      rfl
  refine ⟨sound.effect follows ample.fits effect, backed.effect sound follows ample effect,
    smooth.effect effect, effect.tolerance_eq, le_rfl, by simp, fun pair => ?_⟩
  rw [held]
  simp

/-- The first check is a step after the start, or, of an interval that wraps around to nothing, at once. -/
theorem first_check_eq (settings : Settings) (start : Nat) :
    let delay := Count.wrap (max settings.checkInterval 1)
    start + delay = start + min delay 1 * settings.step := by
  intro delay
  change _ = start + min delay 1 * max delay 1
  cases delay with
  | zero => rfl
  | succ delay => simp

theorem onTime_started {vault : GuardedVault} (blank : vault.vault.rows = ∅)
    (recorded : ∀ (transport : Transport) (l : Nat), vault.vault.latencies[transport]? = some l →
      l = latency transport) (reliable : vault.Reliable)
    (ample : Station.Ample origin settings.tolerance (fun transport l => l = latency transport) start) :
    ((begin vault start settings).perform suite (.call .start)).OnTime suite origin latency settings
      start fun _ => none := by
  let s : Station := ⟨.stopped settings 0, postAt vault start⟩
  have smooth : s.core.Smooth := ⟨reliable, fun _ _ => rfl⟩
  have plans : Station.startPlan suite s = .ok .empty := plan_of_blank (c := s.core) blank start
  have ends := Action.ends_toExcept (Station.start suite) s
  have ok := Station.start_of_smooth ends smooth rfl plans
  rw [ok] at ends
  have effect : Station.Effect suite start s .start .done _ := Station.effect_start ends
  obtain ⟨-, ⟨⟩, ⟨⟩⟩ | ⟨-, duty, -⟩ := Station.duty_start_cases ends
  generalize started : ((Station.start suite).toExcept s).2 = t at effect duty
  have abreast : Station.Abreast suite origin latency settings.tolerance (fun _ => none) start start
      t.core :=
    abreast_started (s := s) blank (Station.sound_stopped blank recorded) (Station.backed_stopped blank)
      smooth ample effect
  have agenda : t.post.agenda = s.duty.attached.agenda := congrArg Station.Duty.agenda duty
  have serial : t.keyring.serial = 0 := congrArg Station.Duty.serial duty
  let delay := Count.wrap (max settings.checkInterval 1)
  let rounds := min delay 1
  have due : start + delay = start + rounds * settings.step := first_check_eq settings start
  have mark : start + (rounds - 1) * settings.step = start := by
    rw [Nat.sub_eq_zero_of_le (Nat.min_le_right ..), Nat.zero_mul, Nat.add_zero]
  refine ⟨t, rounds, ?_, ?_, congrArg Station.Duty.running duty, ⟨0, ?_⟩, ?_, ?_, ?_⟩
  · rw [perform, station?_alter, ← started]
    rfl
  · rw [mark, agenda]
    exact abreast
  · rw [agenda, serial, ← due]
    exact Agenda.entries_enter_of_nil (Agenda.entries_startingAt start)
  · rw [agenda]
    exact fun id => ExtTreeSet.not_mem_empty
  · rw [agenda, ← due]
    change (Agenda.enter _ _ _ (Agenda.startingAt start)).overflowed = true ↔ _
    rw [Agenda.overflowed_enter]
    exact or_iff_right Bool.false_ne_true
  · rw [agenda, ← due]
    change start < start + delay ∨ min delay 1 = 0 ∧ start = start ∧ max delay 1 ≠ settings.checkInterval
    have nothing : delay = 0 → max delay 1 ≠ settings.checkInterval := by
      intro nothing like
      have one : delay = 1 := by
        change Count.wrap (max settings.checkInterval 1) = 1
        rw [← like, nothing]
        rfl
      omega
    omega

theorem OnTime.run {acts : List Act} (onTime : p.OnTime suite origin latency settings start enrolled)
    (keeps : ∀ act ∈ acts, act.Keeps origin latency)
    (ready : ∀ before link l handshake after,
      acts = before ++ .call (.enroll link l handshake) :: after →
        link.epoch ≤ p.post.agenda.now + elapsed before)
    (ample : Station.Ample origin settings.tolerance (fun transport l => l = latency transport)
      (p.post.agenda.now + elapsed acts)) :
    (p.run suite acts).OnTime suite origin latency settings start
      fun pair => (lastEnrolled p.post.agenda.now acts pair).or (enrolled pair) := by
  induction acts generalizing p enrolled with
  | nil =>
    simp only [lastEnrolled, Option.none_or]
    exact onTime
  | cons act acts ih =>
    rw [List.forall_mem_cons] at keeps
    have passes (acts : List Act) : p.post.agenda.now + elapsed (act :: acts) =
        (p.perform suite act).post.agenda.now + elapsed acts := by
      rw [now_perform keeps.1, Nat.add_assoc]
      rfl
    have first := onTime.perform keeps.1
      (fun link l handshake enrolls => ready [] link l handshake acts (by rw [enrolls]; rfl))
      (ample.mono (by rw [passes, now_perform keeps.1]; exact Nat.le_add_right ..))
    have began : (p.perform suite act).post.agenda.now = _ := now_perform keeps.1
    have rest := ih first keeps.2
      (fun before link l handshake after splits =>
        passes before ▸ ready (act :: before) link l handshake after (by rw [splits]; rfl))
      (passes acts ▸ ample)
    simp only [lastEnrolled, ← began, Option.or_assoc]
    exact rest

/-- What the pairs hold while the checks are on time, and when the program has stopped. -/
theorem OnTime.periods (onTime : p.OnTime suite origin latency settings start enrolled) :
    ∃ s, p.station? = some s ∧ s.keyring.running = true ∧
      (∀ pair, s.keyring.periods? pair =
        (enrolled pair).map fun time => Station.livePeriods origin latency settings.tolerance pair
          (max time (start + settings.step * ((p.post.agenda.now - start) / settings.step)))) ∧
      let next := start + settings.step * ((p.post.agenda.now - start) / settings.step + 1)
      (s.post.agenda.overflowed = true → Count.top < next) ∧
        (settings.step = settings.checkInterval →
          (s.post.agenda.overflowed = true ↔ Count.top < next)) := by
  obtain ⟨s, rounds, there, onTime⟩ := onTime
  refine ⟨s, there, onTime.running, ?_, ?_⟩
  · rw [post_eq there, ← onTime.mark_eq]
    exact onTime.abreast.held
  · rw [post_eq there]
    exact onTime.overflowed

/-- Within a step, no more periods begin than fit in. -/
theorem div_add_one_le {now time step interval epoch : Nat} (pos : 0 < interval)
    (lt : now < time + step) :
    (now - epoch) / interval + 1 ≤
      (time - epoch) / interval + 1 + (step + interval - 2) / interval := by
  have split := Nat.div_add_mod (time - epoch) interval
  have rest := Nat.mod_lt (time - epoch) pos
  have le : now - epoch ≤
      interval * ((time - epoch) / interval) + (step + interval - 2) := by omega
  have := Nat.div_le_div_right (c := interval) le
  rw [Nat.mul_add_div pos] at this
  omega

/-- Links whose epochs are past at first can be enrolled at any time. -/
theorem ready_of_forall {now : Nat} {acts : List Act}
    (past : ∀ link l handshake, Act.call (.enroll link l handshake) ∈ acts → link.epoch ≤ now) :
    ∀ before link l handshake after, acts = before ++ .call (.enroll link l handshake) :: after →
      link.epoch ≤ now + elapsed before := by
  rintro before link l handshake after rfl
  exact (past link l handshake (List.mem_append_right _ List.mem_cons_self)).trans
    (Nat.le_add_right ..)

section Started

variable {vault : GuardedVault} {acts : List Act} (blank : vault.vault.rows = ∅)
  (recorded : ∀ (transport : Transport) (l : Nat), vault.vault.latencies[transport]? = some l →
    l = latency transport) (reliable : vault.Reliable)
  (positive : ∀ transport, 0 < Schedule.interval (latency transport) settings.tolerance)
  (keeps : ∀ act ∈ acts, act.Keeps origin latency)
  (ready : ∀ before link l handshake after,
    acts = before ++ .call (.enroll link l handshake) :: after → link.epoch ≤ start + elapsed before)
  (roomy : Station.Roomy origin settings.tolerance (fun transport l => l = latency transport)
    (start + elapsed acts))

include blank recorded reliable positive keeps ready roomy

/-- What the pairs hold after the start of a keyring, and when the program has stopped. -/
theorem periods_run :
    let now := start + elapsed acts
    let next := start + settings.step * ((now - start) / settings.step + 1)
    ∃ s, ((begin vault start settings).run suite (.call .start :: acts)).station? = some s ∧
      s.post.agenda.now = now ∧ s.keyring.running = true ∧
      (∀ pair, s.keyring.periods? pair = (lastEnrolled start acts pair).map fun time =>
        Station.livePeriods origin latency settings.tolerance pair
          (max time (start + settings.step * ((now - start) / settings.step)))) ∧
      (s.post.agenda.overflowed = true → Count.top < next) ∧
      (settings.step = settings.checkInterval →
        (s.post.agenda.overflowed = true ↔ Count.top < next)) := by
  intro now next
  have ample : Station.Ample origin settings.tolerance (fun transport l => l = latency transport) now :=
    ⟨fun transport l allow => allow ▸ positive transport, roomy⟩
  have started : ((begin vault start settings).perform suite (.call .start)).OnTime suite origin latency
      settings start fun _ => none :=
    onTime_started blank recorded reliable (ample.mono (Nat.le_add_right ..))
  have began := @now_started suite settings start vault
  obtain ⟨s, there, running, held, overflowed⟩ :=
    (started.run keeps (began.symm ▸ ready) (began.symm ▸ ample)).periods
  rw [now_run keeps, began] at held overflowed
  simp only [Option.or_none] at held
  refine ⟨s, there, ?_, running, held, overflowed⟩
  rw [← post_eq there, now_run keeps, began]

/-- A keyring is started with an empty and reliable vault, latencies do not change, and only time that
goes by moves the clock. Links are enrolled from their epochs on. However much time goes by at once, a
pair that was enrolled holds the secrets of the periods before, at and after the one that was current at
the last step of the checks, or at its enrollment if that was later; no other pair holds any. The
current period is not further ahead than by the periods that can begin within a step. The step is the
interval that was asked for, if that is a count of milliseconds. All of this goes on until the next check
is at no count any more, at which the program stops. -/
theorem follows_clock :
    let now := start + elapsed acts
    let next := start + settings.step * ((now - start) / settings.step + 1)
    ∃ s, ((begin vault start settings).run suite (.call .start :: acts)).station? = some s ∧
      s.post.agenda.now = now ∧ s.keyring.running = true ∧
      (∀ pair, lastEnrolled start acts pair = none → s.keyring.periods? pair = none) ∧
      (∀ pair time, lastEnrolled start acts pair = some time →
        let epoch := (origin pair).epoch
        let interval := Schedule.interval (latency pair.transport) settings.tolerance
        let mark := max time (start + settings.step * ((now - start) / settings.step))
        let current := (mark - epoch) / interval + 1
        s.keyring.periods? pair = some [some (current - 1), some current, some (current + 1)] ∧
          (now - epoch) / interval + 1 ≤ current + (settings.step + interval - 2) / interval) ∧
      (settings.step = settings.checkInterval ↔
        1 ≤ settings.checkInterval ∧ settings.checkInterval ≤ Count.top) ∧
      (s.post.agenda.overflowed = true → Count.top < next) ∧
      (settings.step = settings.checkInterval →
        (s.post.agenda.overflowed = true ↔ Count.top < next)) := by
  intro now next
  obtain ⟨s, there, reads, running, held, overflowed⟩ :=
    @periods_run suite _ _ _ _ _ _ blank recorded reliable positive keeps ready roomy
  refine ⟨s, there, reads, running, fun pair never => ?_, fun pair time enrolls => ?_,
    Settings.step_eq_iff, overflowed⟩
  · rw [held, never, Option.map_none]
  · refine ⟨by rw [held, enrolls]; rfl, div_add_one_le (positive _) ?_⟩
    have lt := Nat.lt_mul_div_succ (now - start) settings.step_pos
    rw [Nat.mul_succ] at lt
    omega

end Started

/-- A link is enrolled between two checks. Then an hour goes by at once, and another one. -/
theorem follows_clock_by_the_hour :
    let acts : List Act := [.advance 30000, .call (.enroll ⟨⟨1, "tcp"⟩, 0, .alice⟩ 20 .wiped),
      .advance 3600000, .advance 3600000]
    let q := (begin ⟨.empty, .clear⟩ 1000 .standard).run bare (.call .start :: acts)
    ∃ s, q.station? = some s ∧ s.post.agenda.now = 7231000 ∧ s.post.agenda.overflowed = false ∧
      s.keyring.periods? ⟨1, "tcp"⟩ = some [some 2, some 3, some 4] := by
  intro acts q
  have keeps : ∀ act ∈ acts, act.Keeps (fun _ => ⟨0, .alice, .wiped⟩) fun _ => 20 := by
    simp [acts, Act.Keeps, Station.Act.Follows, Origin.link]
  obtain ⟨s, there, now, -, -, held, -, within, -⟩ := @follows_clock bare (fun _ => ⟨0, .alice, .wiped⟩)
    (fun _ => 20) .standard 1000 ⟨.empty, .clear⟩ acts rfl (by simp [Vault.empty])
    ⟨rfl, fun _ _ => rfl⟩ (fun _ => by decide) keeps (ready_of_forall (by simp +contextual [acts]))
    (Station.roomy_of_lt (by decide))
  have total : 1000 + elapsed acts = 7231000 := by decide
  have enrolled : lastEnrolled 1000 acts ⟨1, "tcp"⟩ = some 31000 := by decide
  have periods := (held _ _ enrolled).1
  rw [total] at periods within
  exact ⟨s, there, now.trans total, Bool.eq_false_iff.2 (mt within (by decide)),
    periods.trans (by decide)⟩

/-- Of an interval of 2 ^ 64 milliseconds nothing is left. A link is enrolled at the start, and an hour
later, long before the interval is over, the pair holds the secrets of the next period. With an interval
of one millisecond less, the program stops at the start. -/
theorem not_follows_clock :
    let settings : Settings := ⟨18446744073709551616, 3600000⟩
    let acts : List Act := [.call (.enroll ⟨⟨1, "tcp"⟩, 0, .alice⟩ 20 .wiped), .advance 3600000]
    let q := (begin ⟨.empty, .clear⟩ 1000 settings).run bare (.call .start :: acts)
    let mark := max 1000 (1000 + settings.checkInterval * (3600000 / settings.checkInterval))
    ((mark - 0) / Schedule.interval 20 settings.tolerance + 1 = 1 ∧
      ∃ s, q.station? = some s ∧ s.post.agenda.now = 3601000 ∧
        s.keyring.periods? ⟨1, "tcp"⟩ = some [some 1, some 2, some 3]) ∧
    ∃ s, ((begin ⟨.empty, .clear⟩ 1000 ⟨Count.top, 3600000⟩).run bare [.call .start]).station? = some s ∧
      s.post.agenda.now = 1000 ∧ s.post.agenda.overflowed = true := by
  intro settings acts q mark
  have keeps : ∀ act ∈ acts, act.Keeps (fun _ => ⟨0, .alice, .wiped⟩) fun _ => 20 := by
    simp [acts, Act.Keeps, Station.Act.Follows, Origin.link]
  obtain ⟨s, there, now, -, held, -⟩ := @periods_run bare (fun _ => ⟨0, .alice, .wiped⟩) (fun _ => 20)
    settings 1000 ⟨.empty, .clear⟩ acts rfl (by simp [Vault.empty]) ⟨rfl, fun _ _ => rfl⟩
    (fun _ => by decide) keeps (ready_of_forall (by simp +contextual [acts]))
    (Station.roomy_of_lt (by decide))
  have total : 1000 + elapsed acts = 3601000 := by decide
  have enrolled : lastEnrolled 1000 acts ⟨1, "tcp"⟩ = some 1000 := by decide
  have periods := held ⟨1, "tcp"⟩
  rw [total, enrolled] at periods
  refine ⟨⟨by decide, s, there, now.trans total, periods.trans (by decide)⟩, ?_⟩
  obtain ⟨t, there, now, -, -, -, overflowed⟩ := @periods_run bare (fun _ => ⟨0, .alice, .wiped⟩)
    (fun _ => 20) ⟨Count.top, 3600000⟩ 1000 ⟨.empty, .clear⟩ [] rfl (by simp [Vault.empty])
    ⟨rfl, fun _ _ => rfl⟩ (fun _ => by decide) (by simp) (by simp) (Station.roomy_of_lt (by decide))
  exact ⟨t, there, now, (overflowed rfl).2 (by decide)⟩

end Peer

end SealedStream
