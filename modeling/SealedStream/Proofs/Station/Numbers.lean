import SealedStream.Proofs.Station.Lifetime

/-!
# Stream numbers are never used twice

The row of a secret counts the streams that were opened under it. The count only grows while the row
is there, and a row that is gone does not come back: its secret is dead.

## Main definitions

* `Station.Counts` — a stream that was opened is counted.

## Main statements

* `Station.stream_numbers_increase` — the streams of one secret bear increasing numbers.
-/

namespace SealedStream.Station

open Std

variable {suite : Suite} {origin : Pair → Origin} {recorded : ExtTreeMap Transport Nat}
  {tolerance now later : Nat}

/-- The identity of the secret and the ticket, if a stream of our own was opened. -/
def Report.opened? : Report → Option (PeriodId × Ticket)
  | .opened id ticket => some (id, ticket)
  | _ => none

theorem Report.opened?_eq_some_iff {report : Report} {id : PeriodId} {ticket : Ticket} :
    report.opened? = some (id, ticket) ↔ report = .opened id ticket := by
  cases report <;> simp [opened?]

/-- If a stream was opened, the row of its secret has counted it, or the secret is dead. -/
def Counts (origin : Pair → Origin) (recorded : ExtTreeMap Transport Nat) (past : Report)
    (now : Nat) (c : Core) : Prop :=
  ∀ (id : PeriodId) (ticket : Ticket), past = .opened id ticket →
    (∀ row, c.vault.rows[id]? = some row → ticket.stream < row.outgoing) ∧
      (id ∉ c.vault.rows → Expired origin recorded c.tolerance now id)

theorem Counts.mono {past : Report} {c : Core} (counts : Counts origin recorded past now c)
    (positive : Positive recorded c.tolerance) (le : now ≤ later) :
    Counts origin recorded past later c := by
  intro id ticket made
  obtain ⟨counted, gone⟩ := counts id ticket made
  exact ⟨counted, fun absent => (gone absent).mono positive le⟩

/-- A row that came back would be that of a dead secret, but only live ones are stored. -/
theorem Counts.carried {past report : Report} {c c' : Core}
    (counts : Counts origin recorded past now c)
    (tolerance : c'.tolerance = c.tolerance)
    (carried : Carried suite origin recorded c.tolerance now report c.vault.rows c'.vault.rows) :
    Counts origin recorded past now c' := by
  intro id ticket made
  obtain ⟨counted, gone⟩ := counts id ticket made
  rw [tolerance]
  constructor
  · intro row' there
    rcases carried.new id row' there with ⟨row, before, le, -⟩ | ⟨absent, live, -⟩
    · exact (counted row before).trans_le le
    · exact absurd (gone (by simpa using absent)) live.not_expired
  · intro absent
    by_cases before : id ∈ c.vault.rows
    · exact carried.gone id before absent
    · exact gone before

theorem Effect.opened_eq {s : Station} {act : Act} {c : Core} {id : PeriodId} {ticket : Ticket}
    (effect : Effect suite now s act (.opened id ticket) c) :
    ∃ row, s.core.vault.rows[id]? = some row ∧ ticket.stream = row.outgoing ∧
      c.vault.rows[id]? = some { row with outgoing := row.outgoing + 1 } := by
  cases effect with
  | issued held kept => exact ⟨_, kept, rfl, by simp⟩
  | rotated quiet => simp at quiet

/-- The numbers of the streams that are opened under one secret increase. -/
theorem Regular.pairwise_opened {acts : List (Nat × Act)} {s : Station}
    (positive : Positive recorded tolerance) (regular : Regular origin recorded tolerance acts)
    (steady : Steady suite origin recorded 0 s.core) (same : s.core.tolerance = tolerance) :
    (reports suite acts s).Pairwise fun past report => ∀ id ticket ticket',
      past = .opened id ticket → report = .opened id ticket' → ticket.stream < ticket'.stream := by
  refine (regular.pairwise_reports (fun _ _ => True) (Counts origin recorded) positive ?_ ?_
    (fun act _ => Nat.zero_le act.1) steady same trivial).2
  · rintro now later c le rfl -
    exact ⟨trivial, fun past counts => counts.mono positive le⟩
  · rintro t now act report c step -
    refine ⟨trivial, ?_, fun past counts =>
      ⟨?_, counts.carried step.effect.tolerance_eq step.carried⟩⟩
    · rintro id ticket rfl
      obtain ⟨row, -, number, there⟩ := step.effect.opened_eq
      constructor
      · intro row' there'
        obtain rfl := Option.some.inj (there.symm.trans there')
        exact number ▸ Nat.lt_succ_self _
      · intro absent
        simp [ExtTreeMap.mem_iff_isSome_getElem?, there] at absent
    · rintro id ticket ticket' made rfl
      obtain ⟨row, kept, number, -⟩ := step.effect.opened_eq
      exact number ▸ (counts id ticket made).1 row kept

/-- From a vault that stores no secret but the latencies of all transports, with a clock that does
not go back and no contact or transport removed: the streams opened under one secret bear
increasing numbers, whichever calls fail and however often the keyring is lost. -/
theorem stream_numbers_increase {settings : Settings} {serial : Nat} {post : Post}
    {acts : List (Nat × Act)} (blank : post.vault.vault.rows = ∅)
    (positive : ∀ (transport : Transport) (latency : Nat),
      post.vault.vault.latencies[transport]? = some latency → 0 < latency)
    (regular : Regular origin post.vault.vault.latencies settings.tolerance acts) :
    let opened := (reports suite acts ⟨.stopped settings serial, post⟩).filterMap Report.opened?
    (opened.Pairwise fun a b => a.1 = b.1 → a.2.stream < b.2.stream) ∧
      (opened.map fun o => (o.1, o.2.stream)).Nodup := by
  intro opened
  have steady : Steady suite origin post.vault.vault.latencies 0
    (core ⟨.stopped settings serial, post⟩) := steady_stopped blank
  have increasing := regular.pairwise_opened (positive_of_latencies positive settings.tolerance)
    steady rfl
  have pairwise : opened.Pairwise fun a b => a.1 = b.1 → a.2.stream < b.2.stream := by
    refine increasing.filterMap _ ?_
    rintro past report lt ⟨id, ticket⟩ made ⟨id', ticket'⟩ made' ⟨⟩
    exact lt id ticket ticket' (Report.opened?_eq_some_iff.1 made) (Report.opened?_eq_some_iff.1 made')
  refine ⟨pairwise, List.pairwise_map.2 (pairwise.imp ?_)⟩
  rintro ⟨id, ticket⟩ ⟨id', ticket'⟩ lt same
  obtain ⟨same_id, same_stream⟩ := Prod.mk.inj same
  exact (lt same_id).ne same_stream

/-- The keyring is lost after two streams were opened, and started again before the third. -/
theorem stream_numbers_increase_started_again :
    let opened := (reports .standard
      [(1000, .enroll ⟨⟨1, "tcp"⟩, 0, .alice⟩ 20 .wiped), (2000, .issue ⟨1, "tcp"⟩),
        (2000, .issue ⟨1, "tcp"⟩), (3000, .replace 1), (4000, .start), (4000, .issue ⟨1, "tcp"⟩)]
      ⟨.stopped .standard 0, Peer.postAt ⟨.setLatency "tcp" 20 .empty, .clear⟩ 0⟩).filterMap
        Report.opened?
    (opened.Pairwise fun a b => a.1 = b.1 → a.2.stream < b.2.stream) ∧
      (opened.map fun o => (o.1, o.2.stream)).Nodup := by
  refine @stream_numbers_increase .standard (fun _ => ⟨0, .alice, .wiped⟩) .standard 0
    (Peer.postAt ⟨.setLatency "tcp" 20 .empty, .clear⟩ 0) _ rfl ?_ ⟨?_, ?_, ?_, ?_⟩
  · intro transport latency known
    obtain ⟨-, rfl⟩ := latencies_postAt_iff.1 known
    decide
  · simp
  · simp [Act.Follows, Origin.link, latencies_postAt_iff]
  · simp [Act.Keeps]
  · simp only [List.mem_cons, List.not_mem_nil, or_false, forall_eq_or_imp, forall_eq]
    refine ⟨?_, ?_, ?_, ?_, ?_, ?_⟩ <;> exact counted_of_lt (by decide)

end SealedStream.Station
