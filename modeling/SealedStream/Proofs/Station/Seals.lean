import SealedStream.Proofs.Bare
import SealedStream.Proofs.Station.Numbers
import SealedStream.Proofs.Station.Windows
import SealedStream.Proofs.Stream.Seals

/-!
# Seals over a whole run

The streams that a peer opens and those that it answers are numbered apart from each other, the ones by
the rows and the others by the windows. But the frame key does not tell whether a stream is opened or
answered, and a peer that answers the stream of a number which it also opened itself uses the same
nonces under the same key twice. Nothing else makes it do so.

## Main definitions

* `Station.seals` — the frame keys and nonces of all frames written in a run.
* `Report.Clashes` — two streams have the same secret, number and side.
* `Report.Twins` — one of two streams is opened and the other answered, under the same number.

## Main statements

* `Station.nodup_seals_iff_silent` — no frame key and nonce are used twice unless streams clash.
* `Station.nodup_seals_iff` — and in a regular run only twins do.
-/

namespace SealedStream.Station

open Std

/-! ## Streams -/

/-- What is written on a stream that was handed out. -/
structure Work where
  capacity : Nat
  frameLength : Nat
  sink : Sink
  sheets : List Sender.Sheet

namespace Report

/-- The identity of the secret and the ticket, if a stream was handed out. -/
def context? : Report → Option (PeriodId × Ticket)
  | .opened id ticket | .answered id ticket => some (id, ticket)
  | _ => none

/-- Begins to write on the stream that was handed out. -/
def sender? (suite : Suite) (report : Report) (work : Work) : Option Sender :=
  match report with
  | .opened _ ticket =>
    (Sender.opening suite ticket work.capacity work.frameLength work.sink).toOption
  | .answered _ ticket =>
    (Sender.answering suite ticket work.capacity work.frameLength work.sink).toOption
  | _ => none

/-- The frame keys and nonces of the frames written on the stream. -/
def seals (suite : Suite) (report : Report) (work : Work) : List (Key × Bytes) :=
  (report.sender? suite work).elim [] (Sender.seals suite work.sheets)

/-- Two streams have the same secret, number and side. -/
def Clashes (a b : Report) : Prop :=
  ∃ c ∈ a.context?, ∃ d ∈ b.context?,
    c.2.side = d.2.side ∧ c.2.stream = d.2.stream ∧ c.2.key = d.2.key

instance (a b : Report) : Decidable (a.Clashes b) :=
  inferInstanceAs (Decidable (∃ c ∈ a.context?, ∃ d ∈ b.context?, _))

/-- One of two streams is opened and the other answered, and their numbers are the same under the same
secret. Beyond all counts two streams of the peer may be twins as well. -/
inductive Twins : Report → Report → Prop
  | answered_later {id : PeriodId} {a b : Ticket} (same : a.stream = b.stream) :
      Twins (.opened id a) (.answered id b)
  | opened_later {id : PeriodId} {a b : Ticket} (same : a.stream = b.stream) :
      Twins (.answered id a) (.opened id b)
  | exhausted {id : PeriodId} {a b : Ticket} (same : a.stream = b.stream)
      (ge : Count.top ≤ a.stream) : Twins (.answered id a) (.answered id b)

end Report

/-- The frame keys of streams with different sides, numbers or secrets are different. -/
def Separates (suite : Suite) (contexts : List (PeriodId × Ticket)) : Prop :=
  ∀ c ∈ contexts, ∀ d ∈ contexts,
    suite.frameKey c.2.side c.2.stream c.2.key = suite.frameKey d.2.side d.2.stream d.2.key →
      c.2.side = d.2.side ∧ c.2.stream = d.2.stream ∧ c.2.key = d.2.key

instance (suite : Suite) (contexts : List (PeriodId × Ticket)) :
    Decidable (Separates suite contexts) := by
  unfold Separates
  infer_instance

/-- The streams handed out in a run. -/
def contexts (suite : Suite) (acts : List (Nat × Act)) (s : Station) : List (PeriodId × Ticket) :=
  (reports suite acts s).filterMap Report.context?

/-- The frame keys and nonces of all frames written in a run, with one writer for each stream. -/
def seals (suite : Suite) (acts : List (Nat × Act)) (works : List Work) (s : Station) :
    List (Key × Bytes) :=
  ((reports suite acts s).zip works).flatMap fun use => use.1.seals suite use.2

variable {suite : Suite} {report : Report} {work : Work}

namespace Report

theorem fresh_sender {s : Sender} (begins : report.sender? suite work = some s) :
    ∃ c ∈ report.context?, s.Fresh suite c.2 work.capacity := by
  cases report with
  | opened id ticket =>
    cases ends : Sender.opening suite ticket work.capacity work.frameLength work.sink with
    | error fault => simp [sender?, ends, Except.toOption] at begins
    | ok s =>
      simp only [sender?, ends, Except.toOption, Option.some.injEq] at begins
      exact ⟨(id, ticket), rfl, begins ▸ Sender.fresh_opening ends⟩
  | answered id ticket =>
    cases ends : Sender.answering suite ticket work.capacity work.frameLength work.sink with
    | error fault => simp [sender?, ends, Except.toOption] at begins
    | ok s =>
      simp only [sender?, ends, Except.toOption, Option.some.injEq] at begins
      exact ⟨(id, ticket), rfl, begins ▸ Sender.fresh_answering ends⟩
  | done | nothing => cases begins

/-- All frames on one stream are sealed under its frame key. -/
theorem key_of_mem_seals {used : Key × Bytes} (mem : used ∈ report.seals suite work) :
    ∃ c ∈ report.context?, used.1 = suite.frameKey c.2.side c.2.stream c.2.key := by
  unfold seals at mem
  cases begins : report.sender? suite work with
  | none => simp [begins] at mem
  | some s =>
    rw [begins] at mem
    obtain ⟨c, there, fresh⟩ := fresh_sender begins
    exact ⟨c, there, fresh.key_of_mem mem⟩

/-- Whatever is written on a stream, its first nonce is always the same. -/
theorem first_mem_seals (any : report.seals suite work ≠ []) :
    ∃ c ∈ report.context?, (suite.frameKey c.2.side c.2.stream c.2.key, Frame.nonce 0 .header) ∈
      report.seals suite work := by
  unfold seals at any ⊢
  cases begins : report.sender? suite work with
  | none => simp [begins] at any
  | some s =>
    rw [begins] at any
    obtain ⟨c, there, fresh⟩ := fresh_sender begins
    exact ⟨c, there, fresh.first_mem any⟩

theorem nodup_seals (count : work.capacity ≤ Count.top) : (report.seals suite work).Nodup := by
  unfold seals
  cases begins : report.sender? suite work with
  | none => exact List.nodup_nil
  | some s =>
    obtain ⟨c, there, fresh⟩ := fresh_sender begins
    exact fresh.nodup count

/-- What is written on two streams has no key and nonce in common unless they clash. -/
theorem disjoint_seals_iff {a b : Report} {v w : Work}
    (separates : Separates suite (a.context?.toList ++ b.context?.toList)) :
    (a.seals suite v).Disjoint (b.seals suite w) ↔
      (a.Clashes b → a.seals suite v = [] ∨ b.seals suite w = []) := by
  constructor
  · rintro disjoint ⟨c, hc, d, hd, side, stream, key⟩
    by_contra written
    rw [not_or] at written
    obtain ⟨c', hc', first⟩ := first_mem_seals written.1
    obtain ⟨d', hd', first'⟩ := first_mem_seals written.2
    obtain rfl := Option.mem_unique hc hc'
    obtain rfl := Option.mem_unique hd hd'
    rw [side, stream, key] at first
    exact disjoint first first'
  · intro silent used mem mem'
    obtain ⟨c, hc, key⟩ := key_of_mem_seals mem
    obtain ⟨d, hd, key'⟩ := key_of_mem_seals mem'
    have clashes : a.Clashes b := ⟨c, hc, d, hd, separates c
      (List.mem_append_left _ (Option.mem_toList.2 hc)) d
      (List.mem_append_right _ (Option.mem_toList.2 hd)) (key.symm.trans key')⟩
    rcases silent clashes with none | none
    · simp [none] at mem
    · simp [none] at mem'

end Report

/-! ## All runs -/

/-- In no run are a frame key and a nonce used twice, unless streams that clash are both written on. -/
theorem nodup_seals_iff_silent {acts : List (Nat × Act)} {works : List Work} {s : Station}
    (count : ∀ work ∈ works, work.capacity ≤ Count.top)
    (separates : Separates suite (contexts suite acts s)) :
    (seals suite acts works s).Nodup ↔ ((reports suite acts s).zip works).Pairwise fun a b =>
      a.1.Clashes b.1 → a.1.seals suite a.2 = [] ∨ b.1.seals suite b.2 = [] := by
  have each : ∀ use ∈ (reports suite acts s).zip works, (use.1.seals suite use.2).Nodup :=
    fun use mem => Report.nodup_seals (count use.2 (List.of_mem_zip mem).2)
  rw [seals, List.nodup_flatMap, and_iff_right each]
  refine List.Pairwise.iff_of_mem fun {a b} mem mem' => Report.disjoint_seals_iff ?_
  have handed_out {use : Report × Work} (mem : use ∈ (reports suite acts s).zip works) :
      ∀ c ∈ use.1.context?, c ∈ contexts suite acts s :=
    fun c there => List.mem_filterMap.2 ⟨use.1, (List.of_mem_zip mem).1, there⟩
  intro c hc d hd
  simp only [List.mem_append, Option.mem_toList] at hc hd
  exact separates c (hc.elim (handed_out mem c) (handed_out mem' c)) d
    (hd.elim (handed_out mem d) (handed_out mem' d))

/-! ## Regular runs -/

variable {origin : Pair → Origin} {recorded : ExtTreeMap Transport Nat} {tolerance : Nat}

/-- The stream has the key and the side that belong to its secret. -/
def Report.Genuine (suite : Suite) (origin : Pair → Origin) (report : Report) : Prop :=
  ∀ c ∈ report.context?, c.2.key = suite.chain (origin c.1.toPair).handshake c.1.period ∧
    c.2.side = (origin c.1.toPair).side

theorem Step.genuine {now : Nat} {t : Station} {act : Act} {c : Core}
    (step : Step suite origin recorded now t act report c)
    (listed : Listed suite origin recorded now t.core) : report.Genuine suite origin := by
  rintro ⟨id, ticket⟩ there
  cases report with
  | opened =>
    cases there
    cases step.effect with
    | @issued pair current row held kept =>
      obtain ⟨trio, there, stands⟩ := Option.bind_eq_some_iff.1 held
      obtain ⟨first, aligned⟩ := step.before.sound.held pair trio there
      obtain ⟨own, -, real⟩ := aligned .current current stands
      exact ⟨by rw [real.key, own], by rw [real.link, own]; rfl⟩
    | rotated quiet => simp at quiet
  | answered =>
    cases there
    obtain ⟨listing, _, _, there, -, ⟨key, side⟩, -⟩ := step.effect.of_answered
    obtain ⟨link, chained⟩ := listed.genuine _ listing there
    exact ⟨key.trans chained, by rw [side, link]; rfl⟩
  | done | nothing => cases there

theorem Regular.genuine_reports {acts : List (Nat × Act)} {s : Station}
    (positive : Positive recorded tolerance) (regular : Regular origin recorded tolerance acts)
    (steady : Steady suite origin recorded 0 s.core) (same : s.core.tolerance = tolerance)
    (listed : Listed suite origin recorded 0 s.core) :
    ∀ report ∈ reports suite acts s, report.Genuine suite origin := by
  refine (regular.pairwise_reports (R := fun _ report => report.Genuine suite origin)
    (Listed suite origin recorded) (fun _ _ _ => True) positive ?_ ?_
    (fun act _ => Nat.zero_le act.1) steady same listed).1 .nothing trivial
  · rintro now later c le rfl listed
    exact ⟨listed.mono positive le, fun _ _ => trivial⟩
  · intro t now act report c step listed
    exact ⟨listed.step step, trivial, fun _ _ => ⟨step.genuine listed, trivial⟩⟩

/-- If numbers grow with the streams that are opened, and those answered differ, then only twins
clash. -/
theorem Report.clashes_iff_twins {a b : Report} (real : a.Genuine suite origin)
    (real' : b.Genuine suite origin)
    (distinct : ∀ c ∈ a.context?, ∀ d ∈ b.context?, c.2.key = d.2.key → c.1 = d.1)
    (opened : ∀ id ticket ticket', a = .opened id ticket → b = .opened id ticket' →
      ticket.stream < ticket'.stream)
    (answered : ∀ id ticket ticket', a = .answered id ticket → b = .answered id ticket' →
      ticket.stream < Count.top → ticket.stream ≠ ticket'.stream) :
    a.Clashes b ↔ a.Twins b := by
  constructor
  · rintro ⟨⟨id, ticket⟩, there, ⟨id', ticket'⟩, there', -, stream, key⟩
    obtain rfl : id = id' := distinct _ there _ there' key
    cases a with
    | opened =>
      cases there
      cases b with
      | opened =>
        cases there'
        exact absurd stream (opened _ _ _ rfl rfl).ne
      | answered =>
        cases there'
        exact .answered_later stream
      | done | nothing => cases there'
    | answered =>
      cases there
      cases b with
      | opened =>
        cases there'
        exact .opened_later stream
      | answered =>
        cases there'
        exact .exhausted stream (Nat.not_lt.1 fun lt => answered _ _ _ rfl rfl lt stream)
      | done | nothing => cases there'
    | done | nothing => cases there
  · intro twins
    have clash {id : PeriodId} {ticket ticket' : Ticket} (there : (id, ticket) ∈ a.context?)
        (there' : (id, ticket') ∈ b.context?) (same : ticket.stream = ticket'.stream) :
        a.Clashes b := by
      obtain ⟨key, side⟩ := real _ there
      obtain ⟨key', side'⟩ := real' _ there'
      exact ⟨_, there, _, there', side.trans side'.symm, same, key.trans key'.symm⟩
    cases twins with
    | answered_later same | opened_later same | exhausted same => exact clash rfl rfl same

/-- Nothing is stored or listed at the post, and its directory takes all secrets. -/
structure Blank (post : Post) : Prop where
  rows : post.vault.vault.rows = ∅
  listings : post.directory.listings = ∅
  willing : ∀ call s, post.intake.verdict call s = none

theorem listed_stopped {settings : Settings} {serial now : Nat} {post : Post} (blank : Blank post) :
    Listed suite origin recorded now (core ⟨.stopped settings serial, post⟩) :=
  ⟨accounted_stopped blank.listings, blank.willing, rfl⟩

/-- A frame key and a nonce are used twice exactly if two streams that clash are both written on. In a
regular run from the beginning whose secrets have different keys, the streams that clash are the
twins: a stream that the peer opened, and one that it answered, with the same number under the same
secret. -/
theorem nodup_seals_iff {settings : Settings} {serial : Nat} {post : Post} {acts : List (Nat × Act)}
    {works : List Work} (count : ∀ work ∈ works, work.capacity ≤ Count.top)
    (separates : Separates suite (contexts suite acts ⟨.stopped settings serial, post⟩)) :
    let s : Station := ⟨.stopped settings serial, post⟩
    ((seals suite acts works s).Nodup ↔ ((reports suite acts s).zip works).Pairwise fun a b =>
      a.1.Clashes b.1 → a.1.seals suite a.2 = [] ∨ b.1.seals suite b.2 = []) ∧
    ∀ origin : Pair → Origin, Blank post →
      (∀ (transport : Transport) (latency : Nat),
        post.vault.vault.latencies[transport]? = some latency → 0 < latency) →
      Regular origin post.vault.vault.latencies settings.tolerance acts →
      (∀ c ∈ contexts suite acts s, ∀ d ∈ contexts suite acts s, c.2.key = d.2.key → c.1 = d.1) →
      (reports suite acts s).Pairwise fun a b => a.Clashes b ↔ a.Twins b := by
  intro s
  refine ⟨nodup_seals_iff_silent count separates, ?_⟩
  intro origin blank latencies regular distinct
  have steady : Steady suite origin post.vault.vault.latencies 0 s.core := steady_stopped blank.rows
  have listed : Listed suite origin post.vault.vault.latencies 0 s.core := listed_stopped blank
  have positive := positive_of_latencies latencies settings.tolerance
  have genuine := regular.genuine_reports positive steady rfl listed
  have handed_out {report : Report} (mem : report ∈ reports suite acts s) :
      ∀ c ∈ report.context?, c ∈ contexts suite acts s :=
    fun c there => List.mem_filterMap.2 ⟨report, mem, there⟩
  have numbered := (regular.pairwise_opened positive steady rfl).and
    (regular.pairwise_answered positive steady rfl listed)
  refine numbered.imp_of_mem ?_
  intro a b mem mem' apart
  exact Report.clashes_iff_twins (genuine a mem) (genuine b mem')
    (fun c hc d hd => distinct c (handed_out mem c hc) d (handed_out mem' d hd)) apart.1 apart.2

/-- Two streams are opened and one that the peer opened is answered, all under one secret. Frames are written
on each. -/
theorem nodup_seals_three_streams :
    let acts := [(1000, .enroll ⟨⟨1, "tcp"⟩, 0, .alice⟩ 20 .wiped), (2000, .issue ⟨1, "tcp"⟩),
      (2000, .issue ⟨1, "tcp"⟩), (3000, .recognize (1 :: 2 :: 2 :: Bytes.zeros 13))]
    let work : Work := ⟨65536, 1000, .unlimited, [⟨[7], 963, false⟩, ⟨[8], 0, true⟩]⟩
    let s : Station := ⟨.stopped .standard 0, Peer.postAt ⟨.setLatency "tcp" 20 .empty, .clear⟩ 0⟩
    (contexts bare acts s).map (·.2.stream) = [0, 1, 2] ∧
      (seals bare acts [work, work, work, work] s).length = 12 ∧
      (seals bare acts [work, work, work, work] s).Nodup ∧
      (reports bare acts s).Pairwise fun a b => a.Clashes b ↔ a.Twins b := by
  intro acts work s
  obtain ⟨exactly, regular⟩ := @nodup_seals_iff bare .standard 0
    (Peer.postAt ⟨.setLatency "tcp" 20 .empty, .clear⟩ 0) acts [work, work, work, work]
    (by simp [work, Count.top]) (by decide +kernel)
  refine ⟨by decide +kernel, by decide +kernel, exactly.2 (by decide +kernel),
    regular (fun _ => ⟨0, .alice, .wiped⟩) ⟨rfl, rfl, fun _ _ => rfl⟩ ?_ ⟨?_, ?_, ?_, ?_⟩
      (by decide +kernel)⟩
  · intro transport latency known
    obtain ⟨-, rfl⟩ := latencies_postAt_iff.1 known
    decide
  · simp [acts]
  · simp [acts, Act.Follows, Origin.link, latencies_postAt_iff]
  · simp [acts, Act.Keeps]
  · simp only [acts, List.mem_cons, List.not_mem_nil, or_false, forall_eq_or_imp, forall_eq]
    refine ⟨?_, ?_, ?_, ?_⟩ <;> exact counted_of_lt (by decide)

/-- A peer writes on its first stream and answers the first stream of the other peer. -/
theorem not_nodup_seals_twins :
    let acts := [(1000, .enroll ⟨⟨1, "tcp"⟩, 0, .alice⟩ 20 .wiped), (2000, .issue ⟨1, "tcp"⟩),
      (3000, .recognize (1 :: 2 :: Bytes.zeros 14))]
    let work : Work := ⟨65536, 1000, .unlimited, [⟨[7], 0, true⟩]⟩
    let s : Station := ⟨.stopped .standard 0, Peer.postAt .empty 0⟩
    Separates bare (contexts bare acts s) ∧ ¬ (seals bare acts [work, work, work] s).Nodup := by
  decide +kernel

end SealedStream.Station
