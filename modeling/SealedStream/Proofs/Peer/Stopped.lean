import SealedStream.Proofs.Bare
import SealedStream.Proofs.Directory
import SealedStream.Proofs.Peer.Run
import SealedStream.Proofs.Rollover.Plan
import SealedStream.Proofs.Station.Effects

/-!
# A keyring that was stopped

A notice is not acted on when it is sent but when the agenda runs next. The notices that wait when a
keyring is stopped are acted on all the same, so it may take up a latency, and its vault may lose
secrets. Apart from them nothing that is sent reaches the keyring, and no check wakes it up.

A keyring that is stopped without running keeps what it holds.

## Main definitions

* `Station.outduty` — the notices that wait for a keyring, and when they are due.
* `Station.reactAll` — what becomes of a station when the keyring acts on some notices.
* `Peer.Act.Idle` — the act neither starts the keyring nor enrolls a link.

## Main statements

* `Peer.advance_of_idle` — time that goes by makes an idle keyring act on the notices that fall due, and
  do nothing else.
* `Peer.stays_stopped` — what can still happen to a keyring that was stopped.
-/

namespace SealedStream

open Std

namespace Station

variable {suite : Suite} {s t : Station}

/-- The notice that an entry of the agenda keeps for a keyring. -/
def noticeFor (serial : Nat) (entry : Entry Job) : Option Notice :=
  match entry.job with
  | .check _ => none
  | .react serial' notice => if serial = serial' then some notice else none

/-- The notices that wait for the keyring, and when they are due. -/
def outduty (s : Station) : List (Nat × Notice) :=
  s.post.agenda.entries.filterMap fun x => (noticeFor s.keyring.serial x.2).map (x.1.time, ·)

/-- The notices that wait for the keyring and are due at `target` or before. -/
def dueBy (target : Nat) (s : Station) : List Notice :=
  (s.outduty.filter (·.1 ≤ target)).map (·.2)

/-- The keyring acts on some notices. -/
def reactAll (notices : List Notice) (s : Station) : Station :=
  notices.foldl (fun s notice => s.react notice) s

theorem duty_reactAll (notices : List Notice) : (s.reactAll notices).duty = s.duty := by
  induction notices generalizing s with
  | nil => rfl
  | cons notice notices ih => exact ih.trans (duty_react notice)

theorem tryVault_onAgenda (f : Agenda Job → Agenda Job) (kind : VaultCall) (act : Vault.Call Unit) :
    tryVault kind act (s.onAgenda f) = (tryVault kind act s).onAgenda f := by
  have same : (s.onAgenda f).post.vault = s.post.vault := rfl
  simp only [tryVault, onVault, Action.focus, same]
  cases GuardedVault.call kind act s.post.vault <;> rfl

/-- What a keyring makes of a notice does not depend on the agenda. -/
theorem react_onAgenda (f : Agenda Job → Agenda Job) (notice : Notice) :
    (s.onAgenda f).react notice = (s.react notice).onAgenda f := by
  cases notice with
  | contactGone contact => simp only [react, tryVault_onAgenda]; rfl
  | transportUp transport latency => rfl
  | transportGone transport => simp only [react, tryVault_onAgenda]; rfl

theorem reactAll_onAgenda (f : Agenda Job → Agenda Job) (notices : List Notice) :
    (s.onAgenda f).reactAll notices = (s.reactAll notices).onAgenda f := by
  induction notices generalizing s with
  | nil => rfl
  | cons notice notices ih =>
    change ((s.onAgenda f).react notice).reactAll notices = _
    rw [react_onAgenda, ih]
    rfl

theorem reactAll_append (first last : List Notice) :
    s.reactAll (first ++ last) = (s.reactAll first).reactAll last := by
  simp only [reactAll, List.foldl_append]

/-- An idle keyring acts on what falls due for it. -/
theorem runEntry_of_notice {due : Due} {entry : Entry Job}
    (notice : ∃ serial notice, entry = ⟨.react serial notice, none⟩) :
    s.runEntry suite due entry = s.reactAll (noticeFor s.keyring.serial entry).toList := by
  obtain ⟨serial, notice, rfl⟩ := notice
  by_cases own : s.keyring.serial = serial
  · rw [show noticeFor s.keyring.serial ⟨.react serial notice, none⟩ = some notice from if_pos own]
    exact if_pos own
  · rw [show noticeFor s.keyring.serial ⟨.react serial notice, none⟩ = none from if_neg own]
    exact if_neg own

/-- Since `s`, the keyring has acted on the notices among some entries that have fallen due, and nothing
else has happened. -/
structure Reacted (target : Nat) (s t : Station) (past : List (Due × Entry Job)) : Prop where
  entries : s.post.agenda.entries = past ++ t.post.agenda.entries
  early : ∀ x ∈ past, x.1.time ≤ target
  eq : t = (s.reactAll (past.filterMap fun x => noticeFor s.keyring.serial x.2)).onAgenda
    fun _ => t.post.agenda

namespace Reacted

variable {target : Nat} {past : List (Due × Entry Job)} (reacted : Reacted target s t past)
include reacted

theorem serial : t.keyring.serial = s.keyring.serial := by
  rw [reacted.eq]
  exact congrArg Duty.serial (duty_reactAll _)

theorem next {due : Due} {entry : Entry Job} {rest : Agenda Job}
    (notices : ∀ x ∈ s.post.agenda.entries, ∃ serial notice, x.2 = ⟨.react serial notice, none⟩)
    (next : t.post.agenda.popDue? target = some (due, entry, rest)) :
    Reacted target s ((t.onAgenda fun _ => rest.reach due.time).runEntry suite due entry)
      (past ++ [(due, entry)]) := by
  obtain ⟨time, entries, -⟩ := Agenda.of_popDue?_eq_some next
  have all : s.post.agenda.entries = past ++ (due, entry) :: rest.entries :=
    reacted.entries.trans (congrArg _ entries)
  have notice := notices (due, entry) (by rw [all]; simp)
  have same : (t.onAgenda fun _ => rest.reach due.time).runEntry suite due entry =
      (t.reactAll (noticeFor t.keyring.serial entry).toList).onAgenda
        fun _ => rest.reach due.time :=
    (runEntry_of_notice notice).trans (reactAll_onAgenda ..)
  rw [same]
  refine ⟨?_, ?_, ?_⟩
  · rw [List.append_assoc]
    exact all
  · intro x mem
    rcases List.mem_append.1 mem with mem | mem
    · exact reacted.early x mem
    · rw [List.mem_singleton.1 mem]
      exact time
  · have own : List.filterMap (fun x => noticeFor s.keyring.serial x.2) [(due, entry)] =
        (noticeFor s.keyring.serial entry).toList := by
      cases found : noticeFor s.keyring.serial entry <;> simp [found]
    rw [reacted.serial, List.filterMap_append, own, reacted.eq, reactAll_onAgenda, reactAll_append]
    rfl

theorem outduty_eq : s.outduty =
    past.filterMap (fun x => (noticeFor s.keyring.serial x.2).map (x.1.time, ·)) ++ t.outduty := by
  rw [outduty, reacted.entries, List.filterMap_append, outduty, reacted.serial]

theorem of_mem_past {x : Nat × Notice} (mem : x ∈ past.filterMap
    (fun x => (noticeFor s.keyring.serial x.2).map (x.1.time, ·))) : x.1 ≤ target := by
  obtain ⟨y, early, eq⟩ := List.mem_filterMap.1 mem
  obtain ⟨notice, -, rfl⟩ := Option.map_eq_some_iff.1 eq
  exact reacted.early y early

/-- If nothing more is due, the keyring has acted on all notices that were due. -/
theorem finished (late : ∀ x ∈ t.post.agenda.entries, target < x.1.time) :
    t = (s.reactAll (s.dueBy target)).onAgenda (fun _ => t.post.agenda) ∧
      t.outduty = s.outduty.filter (target < ·.1) := by
  have later : ∀ x ∈ t.outduty, target < x.1 := fun x mem => by
    obtain ⟨y, queued, eq⟩ := List.mem_filterMap.1 mem
    obtain ⟨notice, -, rfl⟩ := Option.map_eq_some_iff.1 eq
    exact late y queued
  refine ⟨?_, ?_⟩
  · have due : s.dueBy target = past.filterMap fun x => noticeFor s.keyring.serial x.2 := by
      rw [dueBy, reacted.outduty_eq, List.filter_append,
        List.filter_eq_self.2 fun x mem => by simpa using reacted.of_mem_past mem,
        List.filter_eq_nil_iff.2 fun x mem => by simpa using later x mem, List.append_nil,
        List.map_filterMap]
      simp only [Option.map_map, Function.comp_def, Option.map_id']
    rw [due]
    exact reacted.eq
  · rw [reacted.outduty_eq, List.filter_append,
      List.filter_eq_nil_iff.2 fun x mem => by simpa using reacted.of_mem_past mem,
      List.filter_eq_self.2 fun x mem => by simpa using later x mem, List.nil_append]

end Reacted

/-! ### Nothing is held -/

/-- Nothing is held, known or listed. -/
structure Core.Blank (c : Core) : Prop where
  latencies : c.latencies = ∅
  held : c.held = ∅
  unlisted : c.unlisted = ∅
  directory : c.directory = .empty

/-- A stop leaves nothing but what the vault keeps. -/
theorem stop_of_running (running : s.keyring.running = true) :
    s.stop.core = { s.core with latencies := ∅, held := ∅, unlisted := ∅, directory := .empty } := by
  rw [stop, if_pos running]
  rfl

/-- A stop takes no notice off the agenda. -/
theorem outduty_stop (orderly : s.duty.Orderly) : s.stop.outduty = s.outduty := by
  unfold stop
  split
  · change s.detach.post.agenda.entries.filterMap _ = _
    rw [show s.detach.post.agenda.entries = _ from orderly.entries_detached, List.filterMap_filter]
    refine List.filterMap_congr fun x mem => ?_
    rcases orderly.expected x mem with ⟨task, serial, check⟩ | ⟨other, -⟩
    · simp [task, noticeFor, check]
    · simp [other, detach]
  · rfl

/-- The act neither enrolls a link, nor starts the keyring, nor tells it anything, nor replaces it. -/
def Act.Idle : Act → Prop
  | .stop | .rotate | .check | .issue _ | .recognize _ => True
  | _ => False

/-- Where nothing is held, an idle act has nothing to work with. -/
theorem Core.Blank.effect {act : Act} {now : Nat} {report : Report} {c : Core}
    (blank : s.core.Blank) (idle : act.Idle) (effect : Effect suite now s act report c) :
    c = s.core := by
  obtain ⟨latencies, held, unlisted, directory⟩ := blank
  have none : s.keyring.secrets = [] := by
    rw [Keyring.secrets, show s.keyring.held = ∅ from held]
    rfl
  cases effect with
  | kept => rfl
  | stopped => rw [← latencies, ← held, ← unlisted, ← directory]
  | rotating plans reached unreliable rolls =>
    rw [none, Rollover.plan_nil, Except.ok.injEq] at plans
    subst plans
    rw [show _ = s.core.vault.rows from reached.elim id id, Rollover.retired_summary_empty]
    rfl
  | rotated quiet plans offered rolls =>
    rw [none, Rollover.plan_nil, Except.ok.injEq] at plans
    subst plans
    have nothing : pending .empty s.core.unlisted ++ Rollover.empty.created = [] := rfl
    rw [nothing] at offered
    obtain rfl : _ = [] := List.eq_nil_iff_forall_not_mem.2 fun x mem =>
      List.not_mem_nil ((offered.mem_iff x).2 (.inl mem))
    obtain rfl : _ = [] := List.eq_nil_iff_forall_not_mem.2 fun x mem =>
      List.not_mem_nil ((offered.mem_iff x).2 (.inr mem))
    have still : waiting [] [] (ExtTreeSet.ofList ((pending .empty s.core.unlisted).map (·.id))) =
        s.core.unlisted := by
      rw [unlisted]
      rfl
    rw [Rollover.retired_summary_empty, still, show Rollover.empty.held = s.core.held from held.symm]
    rfl
  | issued there kept =>
    rw [held] at there
    simp at there
  | recognized recognizes =>
    have lookup := recognizes.lookup
    rw [directory] at lookup
    obtain ⟨tag, -, leads⟩ := Directory.lookup?_eq_some_iff.1 lookup
    simp [Directory.empty] at leads
  | _ => exact idle.elim

end Station

namespace Peer

variable {suite : Suite} {p : Peer} {s t : Station}

theorem drain_of_idle (suite : Suite) (fuel target : Nat) (there : p.station? = some s)
    (orderly : s.duty.Orderly)
    (idle : s.keyring.running = false) :
    ∃ t past, ((host suite).drain fuel target p).station? = some t ∧
      Station.Reacted target s t past := by
  refine (Host.drain_induction (h := host suite)
    (fun p => p.Orderly ∧ ∃ t past, p.station? = some t ∧ Station.Reacted target s t past)
    ?_ ⟨⟨s, there, orderly⟩, s, [], there, rfl, by simp, rfl⟩).2
  rintro p due entry rest ⟨orderly', t, past, there', reacted⟩ next
  refine ⟨orderly'.next next, _, _, station?_next there', reacted.next (orderly.of_idle idle) ?_⟩
  rw [← post_eq there']
  exact next

/-- While time goes by, an idle keyring acts on the notices that fall due, and nothing else happens. -/
theorem advance_of_idle (suite : Suite) (ms : Nat) (there : p.station? = some s) (orderly : s.duty.Orderly)
    (idle : s.keyring.running = false) :
    let target := s.post.agenda.now + Count.wrap ms
    ∃ t, (p.advance suite ms).station? = some t ∧
      t = (s.reactAll (s.dueBy target)).onAgenda (fun _ => t.post.agenda) ∧
        t.outduty = s.outduty.filter (target < ·.1) ∧ t.outduty <:+ s.outduty := by
  intro target
  obtain ⟨t, past, there', reacted⟩ :=
    drain_of_idle suite (p.post.agenda.dueRuns target) target there orderly idle
  obtain ⟨eq, rest⟩ := reacted.finished (late_of_drained there')
  refine ⟨t.onAgenda (Agenda.reach target), ?_, ?_, rest, _, reacted.outduty_eq.symm⟩
  · rw [@station?_advance suite p ms target (by rw [post_eq there]), there', Option.map_some]
  · rw [eq]
    rfl

/-- Nothing that is sent reaches an idle keyring. -/
theorem send_of_idle {notice : Notice} (there : p.station? = some s) (orderly : s.duty.Orderly)
    (idle : s.keyring.running = false) : p.send notice = p := by
  have nobody : p.post.bus.listeners = [] := by
    rw [post_eq there]
    exact orderly.listeners_eq_nil idle
  rw [Peer.send, Bus.deliver, nobody]
  rfl

/-! ## Idle runs -/

/-- The keyring is neither started nor told anything, no link is enrolled, and the peer stays. -/
def Act.Idle : Act → Prop
  | .call act => act.Idle
  | _ => True

/-- Since `s`, the keyring was idle, and no notice has come in. Where nothing was held and no notice was
waiting, everything is as it was. -/
structure Rests (s t : Station) : Prop where
  orderly : t.duty.Orderly
  idle : t.keyring.running = false
  outduty : t.outduty <:+ s.outduty
  core : s.core.Blank → s.outduty = [] → t.core = s.core

theorem Rests.trans {u : Station} (first : Rests s t) (next : Rests t u) : Rests s u where
  orderly := next.orderly
  idle := next.idle
  outduty := next.outduty.trans first.outduty
  core blank none := by
    have same := first.core blank none
    rw [← same] at blank ⊢
    exact next.core blank (List.suffix_nil.1 (none ▸ first.outduty))

theorem rests_call {act : Station.Act} (idle : act.Idle) (orderly : s.duty.Orderly)
    (stopped : s.keyring.running = false) : Rests s (act.perform suite s).2 := by
  have same : (act.perform suite s).2.duty = s.duty := by
    have duty := Station.duty_perform suite act s
    cases act with
    | stop => exact duty.trans (if_neg (by simp [stopped]))
    | rotate | check | issue | recognize => exact duty
    | _ => exact idle.elim
  have serial := congrArg Station.Duty.serial same
  have agenda := congrArg Station.Duty.agenda same
  refine ⟨same ▸ orderly, (congrArg Station.Duty.running same).trans stopped, ?_,
    fun blank _ => blank.effect idle (Station.effect_act act s)⟩
  change (Station.post _).agenda = s.post.agenda at agenda
  change (Station.keyring _).serial = s.keyring.serial at serial
  rw [Station.outduty, agenda, serial]
  exact List.suffix_rfl

theorem rests_perform (suite : Suite) {act : Act} (idle : act.Idle) (there : p.station? = some s)
    (orderly : s.duty.Orderly) (stopped : s.keyring.running = false) :
    ∃ t, (p.perform suite act).station? = some t ∧ Rests s t := by
  cases act with
  | call act =>
    exact ⟨_, by rw [Peer.perform, station?_alter, there, Option.map_some],
      rests_call idle orderly stopped⟩
  | send notice =>
    exact ⟨s, (congrArg _ (send_of_idle there orderly stopped)).trans there, orderly, stopped,
      List.suffix_rfl, fun _ _ => rfl⟩
  | advance ms =>
    obtain ⟨t, there', eq, -, suffix⟩ := advance_of_idle suite ms there orderly stopped
    obtain ⟨t', there'', orderly'⟩ : (p.advance suite ms).Orderly :=
      Orderly.advance ⟨s, there, orderly⟩
    cases there'.symm.trans there''
    refine ⟨t, there', orderly', ?_, suffix, fun _ none => ?_⟩
    · rw [eq]
      exact (congrArg Station.Duty.running (Station.duty_reactAll _)).trans stopped
    · have nothing : s.dueBy (s.post.agenda.now + Count.wrap ms) = [] := by
        rw [Station.dueBy, none]
        rfl
      rw [eq, nothing]
      rfl
  | setClock now =>
    refine ⟨s.onAgenda (.setClock now), ?_, ?_, stopped, List.suffix_rfl, fun _ _ => rfl⟩
    · rw [Peer.perform, station?_onAgenda, there, Option.map_some]
    · exact orderly.onAgenda (Nat.le_refl _) orderly.still fun x mem => .inl ⟨x, mem, rfl, rfl⟩
  | moveClock ms =>
    refine ⟨s.onAgenda (.moveClock ms), ?_, ?_, stopped, List.suffix_rfl, fun _ _ => rfl⟩
    · rw [Peer.perform, station?_onAgenda, there, Option.map_some]
    · exact orderly.onAgenda (Nat.le_refl _) orderly.still fun x mem => .inl ⟨x, mem, rfl, rfl⟩

theorem rests_run {acts : List Act} (idle : ∀ act ∈ acts, act.Idle) (there : p.station? = some s)
    (orderly : s.duty.Orderly) (stopped : s.keyring.running = false) :
    ∃ t, (p.run suite acts).station? = some t ∧ Rests s t := by
  induction acts generalizing p s with
  | nil => exact ⟨s, there, orderly, stopped, List.suffix_rfl, fun _ _ => rfl⟩
  | cons act acts ih =>
    rw [List.forall_mem_cons] at idle
    obtain ⟨t, there', first⟩ := rests_perform suite idle.1 there orderly stopped
    obtain ⟨u, there'', next⟩ := ih idle.2 there' first.orderly first.idle
    exact ⟨u, there'', first.trans next⟩

/-- Whatever has happened at a peer, and whatever its agenda still holds: once the keyring is stopped,
nothing that is sent reaches it, and while time goes by it acts on those notices alone that were waiting
for it when it was stopped. If it was running, the stop leaves nothing but what the vault keeps; if no
notice was waiting either, it stays so until a link is enrolled or the keyring is started. -/
theorem stays_stopped {vault : GuardedVault} {now : Nat} {settings : Settings}
    {before between : List Act} (idle : ∀ act ∈ between, act.Idle) :
    let p := (begin vault now settings).run suite before
    let q := (begin vault now settings).run suite (before ++ .call .stop :: between)
    ∃ s t, p.station? = some s ∧ q.station? = some t ∧ t.keyring.running = false ∧
      (∀ notice, q.send notice = q) ∧
      (∀ ms, ∃ u, (q.advance suite ms).station? = some u ∧
        let target := t.post.agenda.now + Count.wrap ms
        u = (t.reactAll (t.dueBy target)).onAgenda (fun _ => u.post.agenda) ∧
          u.outduty = t.outduty.filter (target < ·.1)) ∧
      t.outduty <:+ s.outduty ∧
      (s.keyring.running = true →
        s.stop.core =
            { s.core with latencies := ∅, held := ∅, unlisted := ∅, directory := .empty } ∧
          (s.outduty = [] → t.core = s.stop.core)) := by
  intro p q
  obtain ⟨s, there, orderly⟩ : p.Orderly := orderly_run
  have splits : q = (p.perform suite (.call .stop)).run suite between := by
    simp only [q, p, run, List.foldl_append, List.foldl_cons]
  have halted : (p.perform suite (.call .stop)).station? = some s.stop := by
    rw [Peer.perform, station?_alter, there, Option.map_some]
    rfl
  obtain ⟨u, there', orderly'⟩ : (p.perform suite (.call .stop)).Orderly :=
    Orderly.perform ⟨s, there, orderly⟩
  cases halted.symm.trans there'
  have stopped : s.stop.keyring.running = false := by
    rw [Station.stop]
    split
    · rfl
    · exact Bool.eq_false_iff.2 ‹_›
  obtain ⟨t, there'', rests⟩ := rests_run idle halted orderly' stopped
  rw [← splits] at there''
  have same : s.stop.outduty = s.outduty := Station.outduty_stop orderly
  refine ⟨s, t, there, there'', rests.idle, fun notice => ?_, fun ms => ?_, same ▸ rests.outduty,
    fun running => ⟨Station.stop_of_running running, fun none => ?_⟩⟩
  · exact send_of_idle there'' rests.orderly rests.idle
  · obtain ⟨u, advanced, eq, rest, -⟩ := advance_of_idle suite ms there'' rests.orderly rests.idle
    exact ⟨u, advanced, eq, rest⟩
  · refine rests.core ?_ (same.trans none)
    rw [Station.stop_of_running running]
    exact ⟨rfl, rfl, rfl, rfl⟩

/-- The agenda runs although a keyring was stopped, and the vault loses the secrets of a contact. -/
theorem stays_stopped_of_waiting :
    let vault : GuardedVault := ⟨.setLatency "tcp" 20 .empty, .clear⟩
    let before : List Act := [.call .start, .call (.enroll ⟨⟨1, "tcp"⟩, 0, .alice⟩ 20 .wiped),
      .send (.contactGone 1)]
    let between : List Act := [.send (.contactGone 1)]
    let q := (begin vault 1000 .standard).run bare (before ++ .call .stop :: between)
    (∀ act ∈ between, act.Idle) ∧ (∀ notice, q.send notice = q) ∧
      q.post.vault.vault.rows.size = 3 ∧ (q.advance bare 0).post.vault.vault.rows.size = 0 := by
  intro vault before between q
  have idle : ∀ act ∈ between, act.Idle := by simp [between, Act.Idle]
  obtain ⟨s, t, -, there, -, unheard, elapses, -⟩ :=
    @stays_stopped bare vault 1000 .standard before between idle
  obtain ⟨u, advanced, reached, -⟩ := elapses 0
  refine ⟨idle, unheard, by decide +kernel, ?_⟩
  rw [post_eq advanced, reached, Station.vault_onAgenda,
    ← Option.get_of_eq_some (by decide +kernel) there]
  decide +kernel

/-- A notice that was sent before the stop is acted on after it: the keyring learns of a latency, and the
vault loses the secrets of a contact. A keyring that was not started keeps what it holds. -/
theorem not_stays_stopped :
    let vault : GuardedVault := ⟨.setLatency "tcp" 20 .empty, .clear⟩
    let enroll : Act := .call (.enroll ⟨⟨1, "tcp"⟩, 0, .alice⟩ 20 .wiped)
    let sent : List Act := [.call .start, enroll, .send (.contactGone 1), .send (.transportUp "bt" 60)]
    let stopped := (begin vault 1000 .standard).run bare (sent ++ [.call .stop])
    let later := stopped.advance bare 0
    let unstarted := (begin vault 1000 .standard).run bare [enroll, .call .stop]
    (stopped.post.vault.vault.rows.size = 3 ∧ later.post.vault.vault.rows.size = 0) ∧
      (stopped.keyring?.map (·.latencies.toList) = some [] ∧
        later.keyring?.map (·.latencies.toList) = some [("bt", 60)]) ∧
      unstarted.keyring?.map (·.held.size) = some 1 ∧ unstarted.post.directory.listings.size = 3 := by
  intro vault enroll sent stopped later unstarted
  obtain ⟨s, there, orderly⟩ : stopped.Orderly := orderly_run
  have found : s = stopped.station?.get (by decide +kernel) :=
    (Option.get_of_eq_some _ there).symm
  obtain ⟨u, advanced, reached, -⟩ := advance_of_idle bare 0 there orderly
    (by rw [found]; decide +kernel)
  refine ⟨⟨by decide +kernel, ?_⟩, ⟨by decide +kernel, ?_⟩, by decide +kernel, by decide +kernel⟩
  · rw [post_eq advanced, reached, Station.vault_onAgenda, found]
    decide +kernel
  · rw [keyring?_eq advanced, reached, Station.keyring_onAgenda, found]
    decide +kernel

end Peer

end SealedStream
