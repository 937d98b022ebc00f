import SealedStream.Proofs.Bare
import SealedStream.Proofs.Log
import SealedStream.Proofs.Stream.Submitting

/-!
# The account of a sender

A sender is used in any way while its sink begins to fail at any time. Until it is wiped, the sheets
that it accepted tell what its sink holds, how many frames there are, and what is left of the capacity.
A failing sink wipes it, and then nothing more is written.

The program may stop at a sheet that is too long, and the sender is then as it was. If it goes on with the
low bits of the length, such a sheet may be accepted without a trace on a stream of our own, as long as the
tag was not written.

## Main definitions

* `Sender.Act` — one thing that happens to a sender.
* `Sender.accepted`, `Sender.laid` — the sheets that were accepted, and those that left a trace.
* `Sender.Step` — what one act does to the sender and answers.

## Main statements

* `Sender.effect_perform`, `Sender.Effect.step` — every act is such a step.
* `Sender.wrote_run` — a sender that was not wiped wrote the frames that were laid.
* `Sender.accounting` — both for a stream from its beginning.
-/

namespace SealedStream.Sender

open SealedStream.Action

/-- What can happen to a sender. -/
inductive Act where
  | write (sheet : Sheet)
  | flush
  | wipe
  /-- From now on the sink has other limits. -/
  | limit (room : Option (Nat × IoFault)) (stuck : Option IoFault)
deriving DecidableEq

/-- Carries out an act. There is no answer if the program stops. -/
def Act.perform (o : Overflow) (suite : Suite) (act : Act) (s : Sender) :
    Option (Except StreamFault Unit) × Sender :=
  match act with
  | .write sheet =>
    match submit o suite sheet s with
    | some (r, t) => (some r, t)
    | none => (none, s)
  | .flush => (some (Sender.flush.toExcept s).1, (Sender.flush.toExcept s).2)
  | .wipe => (some (.ok ()), s.wipe)
  | .limit room stuck => (some (.ok ()), { s with sink := { s.sink with room, stuck } })

/-- The acts of a run, with what they answer. -/
abbrev log (o : Overflow) (suite : Suite) (acts : List Act) (s : Sender) :
    List (Log.Entry Sender Act (Option (Except StreamFault Unit))) :=
  SealedStream.log (Act.perform o suite) acts s

/-- The sender after some acts. -/
def run (o : Overflow) (suite : Suite) (acts : List Act) (s : Sender) : Sender :=
  acts.foldl (fun s act => (act.perform o suite s).2) s

/-- The sheet of a write that was answered without a fault. -/
def Act.accepted? (act : Act) (report : Option (Except StreamFault Unit)) : Option Sheet :=
  match act, report with
  | .write sheet, some (.ok ()) => some sheet
  | _, _ => none

/-- The sheets that were accepted, in order. -/
def accepted (entries : List (Log.Entry Sender Act (Option (Except StreamFault Unit)))) : List Sheet :=
  entries.filterMap fun e => e.act.accepted? e.report

/-- Of the sheets that were accepted, those that left a trace. On a stream of our own, empty last frames
before any other leave none, nor do those that pass for such. -/
def laid (o : Overflow) (opens : Bool) (sheets : List Sheet) : List Sheet :=
  if opens then sheets.dropWhile (·.Traceless o) else sheets

/-- What an act hands to the sink, if it goes well. -/
def Act.due (suite : Suite) (s : Sender) : Act → Bytes
  | .write sheet => s.key?.elim [] (handed suite · sheet s)
  | _ => []

variable {o : Overflow} {suite : Suite} {key : Key} {s t : Sender} {act : Act} {acts : List Act}
  {sheet : Sheet} {r : Option (Except StreamFault Unit)}

/-! ## Single acts -/

/-- What can come of an act. -/
inductive Effect (o : Overflow) (suite : Suite) (s : Sender) :
    Act → Option (Except StreamFault Unit) → Sender → Prop where
  | wrote {sheet : Sheet} {r : Except StreamFault Unit} {t : Sender}
    (ends : Submission o suite sheet s (some (r, t))) : Effect o suite s (.write sheet) (some r) t
  | stopped {sheet : Sheet} (ends : Submission o suite sheet s none) :
    Effect o suite s (.write sheet) none s
  | barred (gone : s.key? = none) : Effect o suite s .flush (some (.error .wiped)) s
  | flushed (kept : s.key? ≠ none) : Effect o suite s .flush (some (.ok ())) s
  | stuck {fault : IoFault} (kept : s.key? ≠ none) :
    Effect o suite s .flush (some (.error (.io fault))) s.wipe
  | wiped : Effect o suite s .wipe (some (.ok ())) s.wipe
  | limited {room : Option (Nat × IoFault)} {stuck : Option IoFault} :
    Effect o suite s (.limit room stuck) (some (.ok ())) { s with sink := { s.sink with room, stuck } }

theorem effect_perform (o : Overflow) (suite : Suite) (act : Act) (s : Sender) :
    Effect o suite s act (act.perform o suite s).1 (act.perform o suite s).2 := by
  cases act with
  | write sheet =>
    have ends := submission o suite sheet s
    rw [Act.perform]
    split
    · rename_i submits
      exact .wrote (submits ▸ ends)
    · rename_i stops
      exact .stopped (stops ▸ ends)
  | flush =>
    rcases flush_cases (ends_toExcept flush s) with ⟨gone, r, t⟩ | ⟨kept, ⟨r, t⟩ | ⟨fault, r, t⟩⟩
    · rw [Act.perform, r, t]
      exact .barred gone
    · rw [Act.perform, r, t]
      exact .flushed kept
    · rw [Act.perform, r, t]
      exact .stuck kept
  | wipe => exact .wiped
  | limit room stuck => exact .limited

/-- What an act does to a sender and answers. -/
structure Step (o : Overflow) (suite : Suite) (act : Act) (s : Sender)
    (r : Option (Except StreamFault Unit)) (t : Sender) : Prop where
  /-- A frame of the wrong length or beyond the capacity is refused and changes nothing. -/
  refused : (∃ length limit, r = some (.error (.misfit length limit))) ∨
    (∃ required remaining, r = some (.error (.overCapacity required remaining))) → t = s
  /-- Unless the sink fails, a write is accepted just if its frame suits and fits, or leaves no trace. -/
  accepted_iff : ∀ sheet, act = .write sheet → (∀ fault, r ≠ some (.error (.io fault))) →
    (r = some (.ok ()) ↔ ¬ s.Wiped ∧
      (s.tag? ≠ none ∧ sheet.Traceless o ∧ Frame.minLength ≤ s.frameLength ∨
        sheet.length ≤ Count.top ∧ sheet.Suits s.frameLength ∧ sheet.length ≤ s.capacity))
  /-- An empty last frame, or what passes for one, is accepted without effect while the tag is still to be
  written. -/
  traceless : ∀ sheet, act = .write sheet → s.tag? ≠ none → sheet.Traceless o → r = some (.ok ()) → t = s
  /-- The program stops at a frame that is too long, at once or, if it keeps the low bits of the length, when
  these are fine. -/
  stopped_iff : r = none ↔ ∃ sheet, act = .write sheet ∧ ¬ s.Wiped ∧ Count.top < sheet.length ∧
    (o = .wraps → s.judge sheet.last (Count.wrap sheet.length) = .ok true)
  /-- It has changed nothing until then. -/
  stopped : r = none → t = s
  /-- If the sink fails, it has taken a part of what it was handed. -/
  broken : ∀ fault, r = some (.error (.io fault)) →
    ∃ part, t.sink.taken = s.sink.taken ++ part ∧ part <+: act.due suite s
  /-- The keys are gone for good once they were wiped, or the sink has failed. -/
  wiped_iff : t.Wiped ↔ s.Wiped ∨ act = .wipe ∨ ∃ fault, r = some (.error (.io fault))
  /-- Nothing is written without the keys, and who tries is told. -/
  silent : s.Wiped → t.sink.taken = s.sink.taken ∧
    ((∃ sheet, act = .write sheet) ∨ act = .flush → r = some (.error .wiped))

/-- A frame passes for an empty last one just if that is what is reckoned for it. -/
theorem judge_of_traceless {length : Nat} (fits : Frame.minLength ≤ s.frameLength)
    (pending : s.tag? ≠ none) (traceless : sheet.Traceless o) (reckoned : sheet.reckon o = some length) :
    s.judge sheet.last length = .ok false := by
  obtain ⟨last, empty⟩ := traceless
  obtain rfl := Option.some.inj (reckoned.symm.trans empty)
  rcases judge_cases sheet.last Frame.minLength s with ⟨unfit, -⟩ | ⟨-, ⟨-, -, -, judged⟩ | ⟨shown, -⟩⟩
  · simp only [last, not_true_eq_false, false_and, or_false] at unfit
    omega
  · exact judged
  · exact (shown.elim pending (· ⟨last, rfl⟩)).elim

/-- A submission that the sink does not break is accepted just if its frame suits and fits, or leaves no
trace. -/
theorem Submission.accepted_iff {x : Option (Except StreamFault Unit × Sender)}
    (ends : Submission o suite sheet s x) (unbroken : ∀ fault t, x ≠ some (.error (.io fault), t)) :
    (∃ t, x = some (.ok (), t)) ↔ ¬ s.Wiped ∧
      (s.tag? ≠ none ∧ sheet.Traceless o ∧ Frame.minLength ≤ s.frameLength ∨
        sheet.length ≤ Count.top ∧ sheet.Suits s.frameLength ∧ sheet.length ≤ s.capacity) := by
  cases ends with
  | written outcome count =>
    cases outcome with
    | wiped gone => exact iff_of_false (by simp) fun ⟨kept, _⟩ => kept gone
    | misfit kept unfit =>
      have count := count.resolve_left (by simp [Wiped, kept])
      refine iff_of_false (by simp) ?_
      rintro ⟨-, ⟨pending, traceless, fits⟩ | ⟨-, suits, -⟩⟩
      · obtain ⟨last, empty⟩ := (Sheet.traceless_iff_blank count).1 traceless
        exact unfit ⟨by omega, fun more => by simp [last] at more⟩
      · exact unfit suits
    | blank kept suits pending blank =>
      refine iff_of_true ⟨s, rfl⟩ ⟨by simp [Wiped, kept], .inl ⟨pending, blank.traceless, ?_⟩⟩
      exact blank.2 ▸ suits.le
    | excess kept _ shown short =>
      have count := count.resolve_left (by simp [Wiped, kept])
      refine iff_of_false (by simp) ?_
      rintro ⟨-, ⟨pending, traceless, -⟩ | ⟨-, -, fits⟩⟩
      · exact shown.elim pending (· ((Sheet.traceless_iff_blank count).1 traceless))
      · omega
    | taken kept suits _ fits =>
      have kept : ¬ s.Wiped := by simp [Wiped, kept]
      exact iff_of_true ⟨_, rfl⟩ ⟨kept, .inr ⟨count.resolve_left kept, suits, fits⟩⟩
    | failed => exact absurd rfl (unbroken _ _)
  | refused kept exceeds wraps _ judged =>
    subst wraps
    refine iff_of_false (by simp) ?_
    rintro ⟨-, ⟨pending, traceless, fits⟩ | ⟨count, -⟩⟩
    · have reckoned : sheet.reckon .wraps = _ := Sheet.reckon_eq.trans (Overflow.count_wraps _)
      cases judged.symm.trans (judge_of_traceless fits pending traceless reckoned)
    · omega
  | passed kept _ _ fits pending traceless =>
    exact iff_of_true ⟨s, rfl⟩ ⟨by simp [Wiped, kept], .inl ⟨pending, traceless, fits⟩⟩
  | stopped kept exceeds unsealed =>
    refine iff_of_false (by simp) ?_
    rintro ⟨-, ⟨pending, traceless, fits⟩ | ⟨count, -⟩⟩
    · cases o with
      | stops =>
        rw [Sheet.Traceless, Sheet.reckon_eq, Overflow.count_stops_eq_none exceeds] at traceless
        cases traceless.2
      | wraps =>
        have reckoned : sheet.reckon .wraps = _ := Sheet.reckon_eq.trans (Overflow.count_wraps _)
        cases (unsealed rfl).symm.trans (judge_of_traceless fits pending traceless reckoned)
    · omega

/-- Every act is a step. -/
theorem Effect.step (effect : Effect o suite s act r t) : Step o suite act s r t where
  refused := by
    cases effect with
    | wrote ends =>
      cases ends with
      | written outcome => cases outcome <;> simp
      | _ => simp
    | _ => simp
  accepted_iff := by
    rintro sheet rfl unbroken
    cases effect with
    | wrote ends =>
      rw [← ends.accepted_iff fun fault _ eq =>
        unbroken fault (congrArg (Option.map Prod.fst) eq)]
      simp
    | stopped ends =>
      rw [← ends.accepted_iff (by simp)]
      simp
  traceless := by
    rintro sheet rfl pending traceless rfl
    cases effect with
    | wrote ends =>
      cases ends with
      | written outcome count =>
        cases outcome with
        | blank => rfl
        | taken kept _ shown =>
          have count := count.resolve_left (by simp [Wiped, kept])
          exact (shown.elim pending (· ((Sheet.traceless_iff_blank count).1 traceless))).elim
      | passed => rfl
  stopped_iff := by
    cases effect with
    | wrote ends =>
      refine iff_of_false (by simp) ?_
      rintro ⟨sheet, ⟨⟩, kept, exceeds, unsealed⟩
      cases ends with
      | written _ count =>
        have := count.resolve_left kept
        omega
      | refused _ _ wraps _ judged | passed _ _ wraps _ _ _ judged =>
        cases judged.symm.trans (unsealed wraps)
    | stopped ends =>
      cases ends with
      | stopped kept exceeds unsealed =>
        exact iff_of_true rfl ⟨_, rfl, by simp [Wiped, kept], exceeds, unsealed⟩
    | _ => simp
  stopped := by
    rintro rfl
    cases effect with
    | stopped => rfl
  broken := by
    rintro fault rfl
    cases effect with
    | wrote ends =>
      cases ends with
      | written outcome =>
        cases outcome with
        | failed kept _ _ _ breaks =>
          rw [Act.due, kept]
          exact Sink.prefix_of_take breaks
      | refused _ _ _ unlike => exact absurd rfl (unlike fault)
    | stuck => exact ⟨[], by simp [wipe], List.nil_prefix⟩
  wiped_iff := by
    cases effect with
    | wrote ends =>
      cases ends with
      | written outcome => cases outcome <;> simp [Wiped, counted, wipe, *]
      | refused _ _ _ unlike => simp [unlike]
      | passed => simp
    | stuck | wiped => simp [Wiped, wipe]
    | stopped | barred | flushed | limited => simp [Wiped]
  silent gone := by
    cases effect with
    | wrote ends =>
      cases ends with
      | written outcome =>
        cases outcome with
        | wiped => exact ⟨rfl, fun _ => rfl⟩
        | misfit kept | blank kept | excess kept | taken kept | failed kept =>
          simp [Wiped, kept] at gone
      | refused kept | passed kept => simp [Wiped, kept] at gone
    | stopped ends =>
      cases ends with
      | stopped kept => simp [Wiped, kept] at gone
    | barred => exact ⟨rfl, fun _ => rfl⟩
    | flushed kept | stuck kept => exact absurd gone kept
    | wiped | limited => simp [wipe]

/-- An act wipes the sender, or the frame of the sheet that it accepts is written, if there is such a
sheet and it leaves a trace. -/
theorem Effect.wrote_or_wiped (effect : Effect o suite s act r t) (kept : s.key? = some key) :
    t.Wiped ∨ ∃ sheets, Wrote suite key s sheets t ∧
      ∀ later, laid o s.tag?.isSome ((act.accepted? r).toList ++ later) =
        sheets ++ laid o t.tag?.isSome later := by
  have dropped {sheet : Sheet} (pending : s.tag? ≠ none) (traceless : sheet.Traceless o)
      (later : List Sheet) : laid o s.tag?.isSome (sheet :: later) = laid o s.tag?.isSome later := by
    obtain ⟨tag, pending⟩ := Option.ne_none_iff_exists'.1 pending
    simp [laid, pending, traceless]
  cases effect with
  | wrote ends =>
    cases ends with
    | written outcome count =>
      replace count := count.resolve_left (by simp [Wiped, kept])
      cases outcome with
      | wiped | misfit | excess => exact .inr ⟨[], wrote_nil kept rfl, fun _ => rfl⟩
      | blank _ _ pending blank =>
        exact .inr ⟨[], wrote_nil kept rfl, dropped pending blank.traceless⟩
      | taken kept' suits shown fits takes =>
        obtain rfl := Option.some.inj (kept.symm.trans kept')
        refine .inr ⟨[_], wrote_counted kept suits fits takes, fun later => ?_⟩
        rw [← Sheet.traceless_iff_blank (o := o) count] at shown
        rcases shown with plain | shown
        · simp [laid, Act.accepted?, counted, plain]
        · simp [laid, Act.accepted?, counted, shown]
      | failed => exact .inl rfl
    | refused => exact .inr ⟨[], wrote_nil kept rfl, fun _ => rfl⟩
    | passed _ _ _ _ pending traceless =>
      exact .inr ⟨[], wrote_nil kept rfl, dropped pending traceless⟩
  | stopped | barred | flushed | limited => exact .inr ⟨[], wrote_nil kept rfl, fun _ => rfl⟩
  | stuck | wiped => exact .inl rfl

/-- No more than `limit` bytes come to be in the sink: what it holds, and what the sender may still
write. -/
def Within (limit : Nat) (s : Sender) : Prop :=
  s.sink.taken.length + (if s.Wiped then 0 else s.tag?.elim 0 (fun _ => 16) + s.capacity) ≤ limit

theorem length_handed : (handed suite key sheet s).length =
    s.tag?.elim 0 (fun _ => 16) + sheet.length := by
  rw [handed, List.length_append, Frame.length_sealWhole]
  cases s.tag? <;> simp [Sheet.length]

theorem Effect.within (effect : Effect o suite s act r t) {limit : Nat} (within : s.Within limit) :
    t.Within limit := by
  have wiped : s.wipe.Within limit := by
    have le : s.sink.taken.length ≤ limit := Nat.le_trans (Nat.le_add_right _ _) within
    simpa [Within, Wiped, wipe] using le
  cases effect with
  | wrote ends =>
    cases ends with
    | written outcome =>
      cases outcome with
      | wiped | misfit | blank | excess => exact within
      | taken kept suits shown fits takes =>
        have taken := congrArg List.length (Sink.taken_of_take takes)
        rw [List.length_append, length_handed] at taken
        simp only [Within, Wiped, kept, counted, reduceCtorEq, if_false, taken, Option.elim_none]
          at within ⊢
        omega
      | failed kept suits shown fits breaks =>
        obtain ⟨part, taken, piece⟩ := Sink.prefix_of_take breaks
        have le := piece.length_le
        rw [length_handed] at le
        simp only [Within, Wiped, kept, wipe, reduceCtorEq, if_false, if_true, taken,
          List.length_append] at within ⊢
        omega
    | refused | passed => exact within
  | stopped | barred | flushed | limited => exact within
  | stuck | wiped => exact wiped

/-! ## Runs -/

/-- A sender that was wiped stays so. -/
theorem wiped_run (gone : s.Wiped) : (run o suite acts s).Wiped := by
  induction acts generalizing s with
  | nil => exact gone
  | cons act acts ih => exact ih ((effect_perform o suite act s).step.wiped_iff.2 (.inl gone))

/-- A sender that still has its key has written the frames of the sheets that left a trace. -/
theorem wrote_run (kept : s.key? = some key) (alive : ¬ (run o suite acts s).Wiped) :
    Wrote suite key s (laid o s.tag?.isSome (accepted (log o suite acts s))) (run o suite acts s) := by
  induction acts generalizing s with
  | nil =>
    have none : laid o s.tag?.isSome [] = [] := by simp [laid]
    exact none ▸ wrote_nil kept rfl
  | cons act acts ih =>
    rcases (effect_perform o suite act s).wrote_or_wiped kept with gone | ⟨sheets, wrote, laid_eq⟩
    · exact absurd (wiped_run gone) alive
    · have split : accepted (log o suite (act :: acts) s) =
          (act.accepted? (act.perform o suite s).1).toList ++
            accepted (log o suite acts (act.perform o suite s).2) := by
        rw [log, log_cons, accepted, List.filterMap_cons]
        cases act.accepted? (act.perform o suite s).1 <;> rfl
      rw [split, laid_eq]
      exact wrote.append (ih wrote.kept alive)

/-- After the keys are gone nothing more is written, and every further attempt is refused. -/
def Silenced (past e : Log.Entry Sender Act (Option (Except StreamFault Unit))) : Prop :=
  past.after.Wiped → e.after.Wiped ∧ e.after.sink.taken = past.after.sink.taken ∧
    ((∃ sheet, e.act = .write sheet) ∨ e.act = .flush → e.report = some (.error .wiped))

theorem pairwise_silenced (o : Overflow) (suite : Suite) (acts : List Act) (s : Sender) :
    (log o suite acts s).Pairwise Silenced := by
  refine (pairwise_log (fun _ => True) (fun past s =>
    past.after.Wiped → s.Wiped ∧ s.sink.taken = past.after.sink.taken) trivial ?_).2
  intro e mem _
  refine ⟨trivial, fun gone => ⟨gone, rfl⟩, fun past mark => ?_⟩
  obtain ⟨-, report, after⟩ := of_mem_log mem
  have step : Step o suite e.act e.before e.report e.after := by
    rw [report, after]
    exact (effect_perform o suite e.act e.before).step
  refine ⟨fun gone => ?_, fun gone => ?_⟩
  · obtain ⟨gone, same⟩ := mark gone
    obtain ⟨still, refused⟩ := step.silent gone
    exact ⟨step.wiped_iff.2 (.inl gone), still.trans same, refused⟩
  · obtain ⟨gone, same⟩ := mark gone
    exact ⟨step.wiped_iff.2 (.inl gone), (step.silent gone).1.trans same⟩

theorem within_run {limit : Nat} (within : s.Within limit) : (run o suite acts s).Within limit := by
  induction acts generalizing s with
  | nil => exact within
  | cons act acts ih => exact ih ((effect_perform o suite act s).within within)

/-! ## From the beginning -/

/-- Begins a stream of our own, or the answer on a stream of the peer. -/
def begin (suite : Suite) (opens : Bool) (ticket : Ticket) (capacity frameLength : Nat) (sink : Sink) :
    Except StreamFault Sender :=
  if opens then opening suite ticket capacity frameLength sink
  else answering suite ticket capacity frameLength sink

/-- The tag of a stream of our own. -/
def tagOf (suite : Suite) (opens : Bool) (ticket : Ticket) : Option Tag :=
  if opens then some (suite.tag (suite.tagKey ticket.side ticket.key) ticket.stream) else none

variable {opens : Bool} {ticket : Ticket} {capacity frameLength : Nat} {sink : Sink}

/-- A sender as it begins. The tag is taken from the capacity at once. -/
theorem of_begin (begins : begin suite opens ticket capacity frameLength sink = .ok s) :
    s.key? = some (suite.frameKey ticket.side ticket.stream ticket.key) ∧
      s.tag? = tagOf suite opens ticket ∧ s.frameLength = frameLength ∧ s.written = 0 ∧
      s.capacity + (if opens then 16 else 0) = capacity ∧ s.sink = sink := by
  cases opens with
  | true =>
    obtain ⟨-, enough, rfl⟩ := opening_eq_ok_iff.1 begins
    exact ⟨rfl, rfl, rfl, rfl, Nat.sub_add_cancel enough, rfl⟩
  | false =>
    rw [of_answering begins]
    exact ⟨rfl, rfl, rfl, rfl, rfl, rfl⟩

theorem demand_of_begin (begins : begin suite opens ticket capacity frameLength sink = .ok s) :
    Frame.minLength ≤ frameLength ∧ frameLength ≤ Frame.maxLength := by
  rw [← demandFrameLength_eq_ok_iff]
  cases opens with
  | true => exact (opening_eq_ok_iff.1 begins).1
  | false => exact (answering_eq_ok_iff.1 begins).1

/-- Whatever is done with a sender, and whenever its sink begins to fail: until it is wiped, the sink
holds the frames of the sheets that were accepted and left a trace, after the tag on a stream of our
own; their number and length are accounted for. All acts are steps, none writes anything once the keys
are gone, and no more bytes are written than there was capacity for. If the program stops at a frame that
is too long, just the empty last frames of a stream of our own that come first leave no trace. -/
theorem accounting (o : Overflow)
    (begins : begin suite opens ticket capacity frameLength sink = .ok s) (acts : List Act) :
    let key := suite.frameKey ticket.side ticket.stream ticket.key
    let sheets := laid o opens (accepted (log o suite acts s))
    let t := run o suite acts s
    (¬ t.Wiped →
      t.sink.taken = sink.taken ++
        ((if opens ∧ sheets ≠ [] then
            (suite.tag (suite.tagKey ticket.side ticket.key) ticket.stream).toList else []) ++
          framesOf suite key 0 sheets) ∧
      t.capacity + (if opens then 16 else 0) + (framesOf suite key 0 sheets).length = capacity ∧
      t.written = sheets.length ∧
      ∀ x ∈ sheets, x.length ≤ frameLength ∧ (x.last = false → x.length = frameLength)) ∧
    (o = .stops → sheets = if opens then (accepted (log o suite acts s)).dropWhile (·.Blank)
      else accepted (log o suite acts s)) ∧
    (∀ e ∈ log o suite acts s, Step o suite e.act e.before e.report e.after) ∧
    (log o suite acts s).Pairwise Silenced ∧
    t.sink.taken.length ≤ sink.taken.length + capacity := by
  intro key sheets t
  obtain ⟨kept, tag, frameLength_eq, written, charged, sink_eq⟩ := of_begin begins
  refine ⟨fun alive => ?_, ?_, ?_, pairwise_silenced o suite acts s, ?_⟩
  · have pending : s.tag?.isSome = opens := by
      rw [tag]
      cases opens <;> rfl
    have wrote : Wrote suite key s sheets t := by
      have wrote : Wrote suite key s _ t := wrote_run kept alive
      rwa [pending] at wrote
    refine ⟨?_, ?_, ?_, fun x mem => ?_⟩
    · rw [wrote.taken, sink_eq, written, tag]
      cases opens with
      | true => by_cases none : sheets = [] <;> simp [none, tagOf]
      | false => simp [tagOf]
    · have left := wrote.capacity
      rw [length_framesOf]
      omega
    · rw [wrote.written, written, Nat.zero_add]
    · rw [← frameLength_eq]
      exact ⟨(wrote.suits x mem).le, (wrote.suits x mem).full⟩
  · rintro rfl
    simp only [sheets, laid, Sheet.traceless_stops_iff]
  · intro e mem
    obtain ⟨-, report, after⟩ := of_mem_log mem
    rw [report, after]
    exact (effect_perform o suite e.act e.before).step
  · have within : s.Within (sink.taken.length + capacity) := by
      rw [Within, if_neg (by simp [Wiped, kept]), sink_eq, tag]
      cases opens <;> simp [tagOf] at charged ⊢ <;> omega
    exact Nat.le_trans (Nat.le_add_right _ _) (within_run within)

/-- An empty last frame leaves no trace, a short one is refused, and the program stops at one that is too
long; then a frame is written, the sink fails within the next one, and no more is written after that. -/
theorem accounting_until_full :
    let ticket : Ticket := ⟨⟨1, "tcp"⟩, .wiped, 5, .alice⟩
    let acts : List Act := [.write ⟨[], 0, true⟩, .write ⟨[7], 0, false⟩, .write ⟨[7], Count.top, true⟩,
      .write ⟨[1, 2, 3], 1, false⟩, .limit (some (10, ⟨"disk full", false⟩)) none,
      .write ⟨[4], 0, true⟩, .flush, .write ⟨[], 0, true⟩]
    ∃ s, begin bare true ticket 100 40 .unlimited = .ok s ∧
      (log .stops bare acts s).map (·.report) =
        [some (.ok ()), some (.error (.misfit 37 40)), none, some (.ok ()), some (.ok ()),
          some (.error (.io ⟨"disk full", false⟩)), some (.error .wiped), some (.error .wiped)] ∧
      (run .stops bare acts s).sink.taken.length = 66 ∧
      (log .stops bare acts s).Pairwise Silenced ∧
      (run .stops bare acts s).sink.taken.length ≤ Sink.unlimited.taken.length + 100 := by
  intro ticket acts
  have begins : begin bare true ticket 100 40 .unlimited = .ok _ := rfl
  exact ⟨_, begins, rfl, by decide +kernel, (accounting .stops begins acts).2.2.2⟩

/-- A last frame with one byte and so much padding that nothing is left of its length but that of an empty
one. The program stops at it; or it accepts it, and the sink gets nothing. -/
theorem not_accounting :
    let ticket : Ticket := ⟨⟨1, "tcp"⟩, .wiped, 5, .alice⟩
    let sheet : Sheet := ⟨[1], Count.top, true⟩
    ∃ s, begin bare true ticket 100 40 .unlimited = .ok s ∧ ¬ sheet.Blank ∧
      ((Act.write sheet).perform .stops bare s).1 = none ∧
      accepted (log .wraps bare [.write sheet] s) = [sheet] ∧
      (run .wraps bare [.write sheet] s).sink.taken = [] := by
  intro ticket sheet
  have begins : begin bare true ticket 100 40 .unlimited = .ok _ := rfl
  exact ⟨_, begins, by decide +kernel, Option.isNone_iff_eq_none.1 (by decide +kernel),
    by decide +kernel, by decide +kernel⟩

end SealedStream.Sender
