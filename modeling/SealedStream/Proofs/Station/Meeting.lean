import SealedStream.Proofs.Bare
import SealedStream.Proofs.Station.Course
import SealedStream.Proofs.Stream.Writing
import SealedStream.Stream.Opener

/-!
# Two peers meet

Two peers have enrolled one handshake, each on its own side. Each holds the secrets around the
period that was current at its last renewal. If the two renewals lie within one interval of each
other, either peer holds the secret under which the other opens streams, and finds these streams by
their tags.

## Main definitions

* `Station.Party` — a keyring at its post with one link, and what it goes through.
* `Station.Party.Renewed` — the link was enrolled, and its secrets were last renewed at some time.
* `Station.Party.Peers` — two parties at the two ends of one link.

## Main statements

* `Station.Party.Renewed.holds` — what a party holds and lists.
* `Station.Party.Peers.finds_opened` — a party finds the streams that its peer opens.
-/

namespace SealedStream

open Std

namespace Station

variable {suite : Suite} {allowed : Transport → Nat → Prop}

/-- A keyring that was never started, at its post, a link that it is to serve, and what happens. -/
structure Party where
  origin : Pair → Origin
  pair : Pair
  latency : Nat
  settings : Settings
  serial : Nat
  post : Post
  acts : List (Nat × Act)

namespace Party

/-- Where the secrets of the link come from. -/
def link (p : Party) : Origin := p.origin p.pair

/-- How long a period of the link lasts. -/
def interval (p : Party) : Nat := Schedule.interval p.latency p.settings.tolerance

/-- The party before anything has happened. -/
def start (p : Party) : Station := ⟨.stopped p.settings p.serial, p.post⟩

/-- The party after all that happened. -/
def finish (suite : Suite) (p : Party) : Station := p.start.run suite p.acts

/-- From a vault and a directory without secrets, the link was enrolled, and its secrets were last
renewed at the given time. -/
structure Renewed (suite : Suite) (allowed : Transport → Nat → Prop) (p : Party) (time : Nat) :
    Prop where
  blank : p.post.vault.vault.rows = ∅
  unlisted : p.post.directory.listings = ∅
  willing : ∀ call x, p.post.intake.verdict call x = none
  recorded : ∀ (transport : Transport) (latency : Nat),
    p.post.vault.vault.latencies[transport]? = some latency → allowed transport latency
  only : ∀ latency, allowed p.pair.transport latency → latency = p.latency
  follows : ∀ act ∈ p.acts, act.2.Follows p.origin allowed
  ample : ∀ act ∈ p.acts, Ample p.origin p.settings.tolerance allowed act.1
  course : Course suite p.origin p.pair p.latency p.start p.acts (some time)

/-- The two parties are the two sides of one link, and count its periods alike. -/
structure Peers (a b : Party) : Prop where
  epoch : a.link.epoch = b.link.epoch
  handshake : a.link.handshake = b.link.handshake
  side : a.link.side = b.link.side.other
  interval : a.interval = b.interval

/-- A party with the link of one side to some contact, whose secrets derive from a wiped one. -/
def sample (side : Side) (contact : Contact) (vault : Vault) (acts : List (Nat × Act)) : Party where
  origin _ := ⟨0, side, .wiped⟩
  pair := ⟨contact, "tcp"⟩
  latency := 20
  settings := .standard
  serial := 0
  post := Peer.postAt ⟨vault, .clear⟩ 0
  acts := acts

/-- The link of a sample party is enrolled. -/
def enrollSample (side : Side) (contact : Contact) : Act :=
  .enroll ⟨⟨contact, "tcp"⟩, 0, side⟩ 20 .wiped

end Party

/-- Three periods in a row stand in the places of their distance to the current one. -/
theorem get_of_periods {trio : Trio} {current : Nat} (pos : 0 < current)
    (periods : trio.periods = [some (current - 1), some current, some (current + 1)])
    (turn : Turn) : ∃ x, trio.get turn = some x ∧ (x.period : Int) = current + turn.offset := by
  simp only [Trio.periods, Turn.all, List.map_cons, List.map_nil, List.cons.injEq, and_true,
    Option.map_eq_some_iff] at periods
  obtain ⟨⟨x, there, eq⟩, ⟨y, there', eq'⟩, ⟨z, there'', eq''⟩⟩ := periods
  cases turn with
  | old => exact ⟨x, there, by simp only [Turn.offset]; omega⟩
  | current => exact ⟨y, there', by simp only [Turn.offset]; omega⟩
  | new => exact ⟨z, there'', by simp only [Turn.offset]; omega⟩

namespace Party

namespace Renewed

variable {p : Party} {time : Nat} (renewed : p.Renewed suite allowed time)
include renewed

theorem upright : Upright suite p.origin allowed p.start.core where
  sound := sound_stopped renewed.blank renewed.recorded
  backed := backed_stopped renewed.blank
  unopposed := ⟨renewed.willing, rfl⟩

/-- A party holds and lists the genuine secrets around the period that was current at its last
renewal. -/
theorem holds : ∃ trio current, (p.finish suite).keyring.held[p.pair]? = some trio ∧
    Schedule.periodAt p.link.epoch p.interval time = some current ∧
    ∀ turn, ∃ x, trio.get turn = some x ∧ (x.period : Int) = current + turn.offset ∧
      x.pair = p.pair ∧ x.Genuine suite p.origin ∧
      x.id ∈ (p.finish suite).post.directory.listings := by
  obtain ⟨⟨trio, current, there, at_time, periods⟩, displayed⟩ :=
    renewed.course.standing renewed.only renewed.upright renewed.follows renewed.ample
  have upright := renewed.upright.run renewed.follows renewed.ample
  rw [tolerance_run] at at_time
  refine ⟨trio, current, there, at_time, fun turn => ?_⟩
  obtain ⟨x, stands, place⟩ := get_of_periods (Schedule.pos_of_periodAt at_time) periods turn
  obtain ⟨first, row⟩ := upright.sound.held p.pair trio there
  obtain ⟨own, -, real⟩ := row turn x stands
  exact ⟨x, stands, place, own, real, displayed trio there turn x stands⟩

theorem faithful (apart : TagsApart suite p.acts p.start) :
    (p.finish suite).post.directory.Faithful suite p.origin :=
  faithful_run renewed.upright.sound renewed.follows (fun act mem => (renewed.ample act mem).fits)
    renewed.upright.unopposed apart (Directory.faithful_of_empty renewed.unlisted)

end Renewed

end Party

/-- A stream is opened under the current secret of the pair. -/
theorem Effect.opened_held {s : Station} {now : Nat} {pair : Pair} {c : Core} {id : PeriodId}
    {ticket : Ticket} (effect : Effect suite now s (.issue pair) (.opened id ticket) c) :
    ∃ current, (s.core.held[pair]?).bind (·.current) = some current ∧
      id = ⟨pair, current.period⟩ ∧ ticket.key = current.key ∧ ticket.side = current.link.side := by
  cases effect with
  | issued held => exact ⟨_, held, rfl, rfl, rfl⟩
  | rotated quiet => simp at quiet

/-- A faithful directory answers a stream that the window of a listing has not seen. -/
theorem answers_of_unseen {origin : Pair → Origin} {s : Station} {id : PeriodId} {l : Listing}
    {now stream : Nat} {tag : Tag} (faithful : s.post.directory.Faithful suite origin)
    (there : s.post.directory.listings[id]? = some l) (lt : stream < Count.top)
    (covers : l.window.Covers stream) (fresh : ¬ l.window.Seen stream)
    (accepts : s.post.vault.Accepts .setWindow)
    (own : tag = suite.tag (suite.tagKey l.link.side.other l.key) stream) :
    (s.perform suite now (.recognize tag.toList)).1 =
      .answered id ⟨id.toPair, l.key, stream, l.link.side⟩ := by
  have listed := faithful.unseen id l stream there lt covers fresh
  obtain ⟨eq, leads⟩ :=
    faithful.tags id l stream _ there (ExtTreeMap.getElem?_eq_some_getElem listed)
  rw [faithful.tagKey id l there, ← own] at eq
  rw [eq] at leads
  have lookup : s.post.directory.lookup? tag.toList = some (id, stream) :=
    (Directory.lookup?_toList _ _).trans leads
  have ends := Action.ends_toExcept (Registry.recognize suite tag.toList) s.post.toRegistry
  obtain ⟨-, ⟨-, -, -, none⟩ | ⟨id', ticket, window, ok, -, recognizes, -⟩⟩ :=
    Registry.recognize_cases ends
  · have refused := none accepts id stream l lookup there
    simp [SeenWindow.mark?, covers, fresh] at refused
  · obtain ⟨rfl, rfl⟩ := Prod.mk.inj (Option.some.inj (recognizes.lookup.symm.trans lookup))
    obtain ⟨listing, _, _, there', -, -, same, -⟩ := recognizes.listed
    obtain rfl := Option.some.inj (there'.symm.trans there)
    have answered : (s.perform suite now (.recognize tag.toList)).1 = .answered id' ticket := by
      simp only [perform, Act.perform, atTime, lookup, ok]
    rw [answered, same, (faithful.genuine id' listing there).link]
    rfl

namespace Party

variable {a b : Party} {timeA timeB : Nat}

/-- If the last renewals of two peers lie within one interval of each other, the current period of
either peer is one of the three around that of the other. -/
theorem Peers.exists_offset (peers : a.Peers b) {currentA currentB : Nat}
    (atA : Schedule.periodAt a.link.epoch a.interval timeA = some currentA)
    (atB : Schedule.periodAt b.link.epoch b.interval timeB = some currentB)
    (nearA : timeA ≤ timeB + a.interval) (nearB : timeB ≤ timeA + a.interval) :
    ∃ turn : Turn, (currentA : Int) = currentB + turn.offset := by
  rw [← peers.epoch, ← peers.interval] at atB
  have ahead := Schedule.le_succ_of_periodAt atA atB nearA
  have behind := Schedule.le_succ_of_periodAt atB atA nearB
  obtain ⟨turn, offset⟩ := Turn.exists_offset
    (by omega : -1 ≤ (currentA : Int) - currentB) (by omega)
  exact ⟨turn, by omega⟩

/-- A sample party with a recorded latency is renewed by a course. -/
theorem renewed_sample {side : Side} {contact : Contact} {acts : List (Nat × Act)} {time : Nat}
    (follows : ∀ act ∈ acts,
      act.2.Follows (fun _ => ⟨0, side, .wiped⟩) fun _ latency => latency = 20)
    (early : ∀ act ∈ acts, act.1 + 1 < Count.top)
    (course : Course suite (fun _ => ⟨0, side, .wiped⟩) ⟨contact, "tcp"⟩ 20
      (sample side contact (.setLatency "tcp" 20 .empty) acts).start acts (some time)) :
    (sample side contact (.setLatency "tcp" 20 .empty) acts).Renewed suite
      (fun _ latency => latency = 20) time where
  blank := rfl
  unlisted := rfl
  willing _ _ := rfl
  recorded transport latency there := by
    simp only [sample, Peer.postAt, Vault.setLatency, Vault.empty,
      ExtTreeMap.getElem?_insert] at there
    split at there
    · exact (Option.some.inj there).symm
    · simp at there
  only _ := id
  follows := follows
  ample act mem := by
    have pos : 0 < Schedule.interval 20 Settings.standard.tolerance := by decide
    refine ⟨fun _ latency same => ?_, roomy_of_lt (early act mem)⟩
    subst same
    exact pos
  course := course

section Opened

variable {allowedA allowedB : Transport → Nat → Prop} (peers : a.Peers b)
  (renewedA : a.Renewed suite allowedA timeA) (renewedB : b.Renewed suite allowedB timeB)
  (nearA : timeA ≤ timeB + a.interval) (nearB : timeB ≤ timeA + a.interval)
  {now : Nat} {id : PeriodId} {ticket : Ticket}
  (opened : ((a.finish suite).perform suite now (.issue a.pair)).1 = .opened id ticket)
include peers renewedA renewedB nearA nearB opened

/-- The peer holds and lists the secret under which a stream is opened. -/
theorem Peers.shares : ticket.side = a.link.side ∧
    ∃ (trio : Trio) (turn : Turn) (x : PeriodSecret),
      (b.finish suite).keyring.held[b.pair]? = some trio ∧ trio.get turn = some x ∧
        x.id = ⟨b.pair, id.period⟩ ∧ x.key = ticket.key ∧ x.Genuine suite b.origin ∧
        x.id ∈ (b.finish suite).post.directory.listings := by
  obtain ⟨trioA, currentA, heldA, atA, placesA⟩ := renewedA.holds
  obtain ⟨trioB, currentB, heldB, atB, placesB⟩ := renewedB.holds
  have effect : Effect suite now ((a.finish suite).atTime now) (.issue a.pair) _ _ :=
    effect_perform now (.issue a.pair) (a.finish suite)
  rw [opened] at effect
  obtain ⟨x, current, rfl, key, side⟩ := effect.opened_held
  obtain ⟨x', stands, placeA, ownA, realA, -⟩ := placesA .current
  have held : ((a.finish suite).atTime now).core.held[a.pair]? = some trioA := heldA
  rw [held] at current
  obtain rfl : x = x' := Option.some.inj (current.symm.trans stands)
  obtain ⟨turn, offset⟩ := peers.exists_offset atA atB nearA nearB
  obtain ⟨y, stands', placeB, ownB, realB, listed⟩ := placesB turn
  have period : y.period = x.period := by
    simp only [Turn.offset] at placeA
    omega
  refine ⟨?_, trioB, turn, y, heldB, stands', ?_, ?_, realB, listed⟩
  · rw [side, realA.link, ownA]
    rfl
  · rw [← period, ← ownB]
    rfl
  · rw [key, realA.key, realB.key, ownA, ownB, period]
    exact congrArg (suite.chain · x.period) peers.handshake.symm

/-- Two peers were last renewed within one interval of each other. If one of them opens a stream,
the other holds the secret of the stream's period, with the same key. If its listing of that secret
covers the number of the stream and has not seen it, and its vault takes the moved window, then it
recognizes the first bytes that are written on the stream, and opens what follows with the key of
the writer. -/
theorem Peers.finds_opened (apart : TagsApart suite b.acts b.start) :
    (∃ (trio : Trio) (turn : Turn) (x : PeriodSecret),
      (b.finish suite).keyring.held[b.pair]? = some trio ∧ trio.get turn = some x ∧
        x.period = id.period ∧ x.key = ticket.key) ∧
    ∃ l : Listing,
      (b.finish suite).post.directory.listings[(⟨b.pair, id.period⟩ : PeriodId)]? = some l ∧
      (l.window.Covers ticket.stream → ¬ l.window.Seen ticket.stream → ticket.stream < Count.top →
        (b.finish suite).post.vault.Accepts .setWindow →
        ∀ (capacity frameLength : Nat) (sink : Sink) (sender sent : Sender) (sheet : Sender.Sheet),
          Sender.opening suite ticket capacity frameLength sink = .ok sender →
          (Sender.write suite sheet).Ends sender (.ok ()) sent → sent ≠ sender →
          let written := sent.sink.taken.drop sink.taken.length
          let answer : Ticket := ⟨b.pair, ticket.key, ticket.stream, ticket.side.other⟩
          (∀ later, ((b.finish suite).perform suite later (.recognize (written.take 16))).1 =
            .answered ⟨b.pair, id.period⟩ answer) ∧
          (Opener.ofTicket suite answer).key? = sender.key?) := by
  obtain ⟨side, trio, turn, x, held, stands, named, key, real, listed⟩ :=
    peers.shares renewedA renewedB nearA nearB opened
  refine ⟨⟨trio, turn, x, held, stands, congrArg PeriodId.period named, key⟩, ?_⟩
  have faithful := renewedB.faithful apart
  rw [named] at listed
  have there := ExtTreeMap.getElem?_eq_some_getElem listed
  generalize (b.finish suite).post.directory.listings[(⟨b.pair, id.period⟩ : PeriodId)] = l at there
  refine ⟨l, there, ?_⟩
  intro covers fresh lt accepts capacity frameLength sink sender sent sheet begins writes wrote
    written answer
  have genuine := faithful.genuine _ l there
  have l_side : l.link.side = ticket.side.other := by
    rw [genuine.link, side, peers.side, Side.other_other]
    rfl
  have l_key : l.key = ticket.key := by
    rw [genuine.key, ← named, ← key, real.key]
    rfl
  -- What is written on the stream begins with its tag, and the listing has the same tag for it.
  obtain ⟨frame, taken⟩ := Sender.taken_of_opening begins writes wrote
  have first : written.take 16 =
      (suite.tag (suite.tagKey ticket.side ticket.key) ticket.stream).toList := by
    rw [show written = sent.sink.taken.drop sink.taken.length from rfl, taken, List.drop_left,
      List.take_left' (Vector.length_toList ..)]
  constructor
  · intro later
    rw [first, answers_of_unseen faithful there lt covers fresh accepts
      (by rw [l_side, Side.other_other, l_key]), l_side, l_key]
  · rw [Sender.of_opening begins]
    simp only [Opener.ofTicket, answer, Side.other_other]

end Opened

/-- A stream of the first period is recognized in the second one, after the keyring was replaced. -/
theorem Peers.finds_opened_restarted :
    let vault : Vault := .setLatency "tcp" 20 .empty
    let a := sample .alice 1 vault [(1000, enrollSample .alice 1)]
    let b := sample .bob 2 vault
      [(2000, enrollSample .bob 2), (3000, .replace 1), (3601000, .start)]
    let key : Key := Key.wiped.set 0 1 (by decide)
    ((a.finish bare).perform bare 4000 (.issue a.pair)).1 =
        .opened ⟨a.pair, 1⟩ ⟨a.pair, key, 0, .alice⟩ ∧
      ((b.finish bare).perform bare 3602000 (.recognize (1 :: 1 :: Bytes.zeros 14))).1 =
        .answered ⟨b.pair, 1⟩ ⟨b.pair, key, 0, .bob⟩ := by
  intro vault a b key
  have opened : ((a.finish bare).perform bare 4000 (.issue a.pair)).1 =
      .opened ⟨a.pair, 1⟩ ⟨a.pair, key, 0, .alice⟩ := by decide +kernel
  have renewedA : a.Renewed bare (fun _ latency => latency = 20) 1000 := by
    refine renewed_sample ?_ (by decide) (@Course.enrolled _ _ _ _ _ [] 1000 (by decide +kernel))
    simp [enrollSample, Act.Follows, Origin.link]
  have renewedB : b.Renewed bare (fun _ latency => latency = 20) 3601000 := by
    refine renewed_sample ?_ (by decide) ?_
    · simp [enrollSample, Act.Follows, Origin.link]
    · have enrolled := @Course.enrolled bare b.origin b.pair b.latency b.start [] 2000
        (by decide +kernel)
      have dropped := enrolled.dropped 3000 (show (Act.replace 1).Drops from trivial)
      exact .started dropped (by decide +kernel) (by decide +kernel)
  let read (tag : Tag) : PeriodId × Nat := (⟨b.pair, tag[0].toNat⟩, tag[2].toNat)
  have reads : ∀ e ∈ log bare b.acts b.start,
      (∀ entry ∈ e.before.post.directory.listings.toList, ∀ tagged ∈ entry.2.tags.toList,
        read tagged.2 = (entry.1, tagged.1)) ∧
      (∀ entry ∈ e.after.post.directory.listings.toList, ∀ tagged ∈ entry.2.tags.toList,
        read tagged.2 = (entry.1, tagged.1)) := by
    decide +kernel
  have apart : TagsApart bare b.acts b.start := by
    intro e mem
    refine TellApart.of_read read ?_
    rintro id n tag (⟨l, there, listed⟩ | ⟨l, there, listed⟩)
    · exact (reads e mem).1 (id, l) (ExtTreeMap.mem_toList_iff_getElem?_eq_some.2 there) (n, tag)
        (ExtTreeMap.mem_toList_iff_getElem?_eq_some.2 listed)
    · exact (reads e mem).2 (id, l) (ExtTreeMap.mem_toList_iff_getElem?_eq_some.2 there) (n, tag)
        (ExtTreeMap.mem_toList_iff_getElem?_eq_some.2 listed)
  have peers : a.Peers b := ⟨rfl, rfl, rfl, rfl⟩
  obtain ⟨-, l, there, finds⟩ :=
    peers.finds_opened renewedA renewedB (by decide) (by decide) opened apart
  have window : ((b.finish bare).post.directory.listings[(⟨b.pair, 1⟩ : PeriodId)]?).map
      (·.window) = some .empty := by decide +kernel
  rw [there, Option.map_some, Option.some.injEq] at window
  refine ⟨opened, ?_⟩
  let sender : Sender := ⟨some (bare.frameKey .alice 0 key),
    some (bare.tag (bare.tagKey .alice key) 0), 64, 0, 84, .unlimited⟩
  let sheet : Sender.Sheet := ⟨[7], 0, true⟩
  let sent : Sender := ((Sender.write bare sheet).toExcept sender).2
  have first : (sent.sink.taken.drop 0).take 16 = 1 :: 1 :: Bytes.zeros 14 := by decide +kernel
  have found := finds (by rw [window]; decide) (by rw [window]; decide) (by decide)
    ⟨by decide +kernel, by decide +kernel⟩ 100 64 .unlimited sender sent sheet rfl rfl
    (by decide +kernel)
  rw [← first]
  exact found.1 3602000

/-- A peer that has no latency recorded loses the secrets when its keyring is replaced. -/
theorem not_finds_opened_unrecorded :
    let a := sample .alice 1 .empty [(1000, enrollSample .alice 1)]
    let b := sample .bob 2 .empty [(1000, enrollSample .bob 2), (2000, .replace 1), (3000, .start)]
    a.Peers b ∧ 3000 ≤ 1000 + a.interval ∧
      reports bare a.acts a.start = [.done] ∧
      reports bare b.acts b.start = [.done, .nothing, .done] ∧
      ((a.finish bare).perform bare 4000 (.issue a.pair)).1 =
        .opened ⟨a.pair, 1⟩ ⟨a.pair, Key.wiped.set 0 1 (by decide), 0, .alice⟩ ∧
      (b.finish bare).keyring.held[b.pair]? = none := by
  intro a b
  exact ⟨⟨rfl, rfl, rfl, rfl⟩, by decide, by decide +kernel, by decide +kernel, by decide +kernel,
    by decide +kernel⟩

end Party

end Station

end SealedStream
