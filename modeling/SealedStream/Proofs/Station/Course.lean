import SealedStream.Proofs.Rollover.Links
import SealedStream.Proofs.Station.Finding
import SealedStream.Proofs.Station.Triples

/-!
# The course of one pair

A pair is enrolled, and from then on its secrets are rotated as often as one likes, lost together
with the keyring that held them, and found again by a start. The time at which that was last done
fixes the periods that are held: those around the one that was current then.

## Main definitions

* `Station.Course` — what becomes of a pair in a run, and when its secrets were last renewed.
* `Station.Standing` — the pair is held as of its last renewal.
* `Station.Displayed` — what is held of the pair is listed.

## Main statements

* `Station.Course.standing`, `Station.Course.displayed` — after a course, the pair stands and is
  displayed.
-/

namespace SealedStream

open Std

namespace Station

variable {suite : Suite} {origin : Pair → Origin} {allowed : Transport → Nat → Prop}
  {pair : Pair} {latency now : Nat} {renewed : Option Nat} {t : Station} {act : Act}
  {report : Report} {c : Core}

/-- The act gives up what is held, or leaves it alone, but it does not touch the vault. -/
def Act.Drops : Act → Prop
  | .stop | .replace _ | .restart => True
  | _ => False

/-- The act does not concern what is held of the pair. -/
def Act.Spares (pair : Pair) : Act → Prop
  | .enroll link _ _ => link.toPair ≠ pair
  | .issue _ | .recognize _ | .react (.transportUp ..) => True
  | _ => False

/-- After a run the pair is enrolled, with the given latency. Its secrets were last renewed at the
given time, or they were dropped since then. A start needs the latency in the vault. -/
inductive Course (suite : Suite) (origin : Pair → Origin) (pair : Pair) (latency : Nat)
    (s : Station) : List (Nat × Act) → Option Nat → Prop
  | enrolled {acts : List (Nat × Act)} {now : Nat}
      (done : ((s.run suite acts).perform suite now
        (.enroll ((origin pair).link pair) latency (origin pair).handshake)).1 = .done) :
      Course suite origin pair latency s
        (acts ++ [(now, .enroll ((origin pair).link pair) latency (origin pair).handshake)])
        (some now)
  /-- The secrets are rotated, on request or by the agenda. -/
  | rotated {acts : List (Nat × Act)} {act : Act} {before now : Nat}
      (course : Course suite origin pair latency s acts (some before))
      (rolls : act = .rotate ∨ act = .check ∧ (s.run suite acts).keyring.running = true)
      (done : ((s.run suite acts).perform suite now .rotate).1 = .done) :
      Course suite origin pair latency s (acts ++ [(now, act)]) (some now)
  | dropped {acts : List (Nat × Act)} {act : Act} {renewed : Option Nat} (now : Nat)
      (course : Course suite origin pair latency s acts renewed) (drops : act.Drops) :
      Course suite origin pair latency s (acts ++ [(now, act)]) none
  | started {acts : List (Nat × Act)} {now : Nat} {renewed : Option Nat}
      (course : Course suite origin pair latency s acts renewed)
      (recorded : (s.run suite acts).post.vault.vault.latencies[pair.transport]? = some latency)
      (done : ((s.run suite acts).perform suite now .start).1 = .done) :
      Course suite origin pair latency s (acts ++ [(now, .start)]) (some now)
  | spared {acts : List (Nat × Act)} {act : Act} {renewed : Option Nat} (now : Nat)
      (course : Course suite origin pair latency s acts renewed) (spares : act.Spares pair) :
      Course suite origin pair latency s (acts ++ [(now, act)]) renewed

/-! ## What is held -/

/-- The three secrets around the period that was current at the last renewal are held. If they were
dropped since then, a secret of the pair is stored wherever a start may look for it. -/
def Standing (origin : Pair → Origin) (pair : Pair) (latency : Nat) (c : Core) :
    Option Nat → Prop
  | some now => ∃ trio current, c.held[pair]? = some trio ∧
      Schedule.periodAt (origin pair).epoch (Schedule.interval latency c.tolerance) now =
        some current ∧
      trio.periods = [some (current - 1), some current, some (current + 1)]
  | none => pair.transport ∈ c.vault.latencies → ∃ p, c.Stores pair p

/-- Where a start may look for it, a secret of the pair is stored. -/
theorem Standing.stored (standing : Standing origin pair latency c renewed) (backed : Backed c) :
    Standing origin pair latency c none := by
  intro recorded
  cases renewed with
  | none => exact standing recorded
  | some before =>
    obtain ⟨trio, -, there, -, -⟩ := standing
    obtain ⟨_, -, -, supports⟩ := backed.held pair trio there
    exact (supports recorded).nonempty

theorem standing_enrolled {handshake : Key} (sound : Sound suite origin allowed t.core)
    (follows : (Act.enroll ((origin pair).link pair) latency handshake).Follows origin allowed)
    (effect : Effect suite now t (.enroll ((origin pair).link pair) latency handshake) .done c) :
    Standing origin pair latency c (some now) := by
  cases effect with
  | enrolled at_now reached =>
    have pos := Schedule.pos_of_periodAt at_now
    refine ⟨_, _, ExtTreeMap.getElem?_insert_self, at_now, ?_⟩
    rw [liveSecrets_of_follows follows pos,
      periods_trioOf (sound.genuineRows_enrolled follows pos (.inr reached))]
  | rotated _ _ _ rolls => simp at rolls

section Rollovers

variable (backed : Backed t.core) (sound : Sound suite origin allowed t.core)
  (ample : Ample origin t.core.tolerance allowed now)
include backed sound ample

theorem standing_started (standing : Standing origin pair latency t.core renewed)
    (recorded : t.core.vault.latencies[pair.transport]? = some latency)
    (effect : Effect suite now t .start .done c) : Standing origin pair latency c (some now) := by
  cases effect with
  | started plans =>
    have planned := sound.planned_stored ample.fits plans
    have there : pair.transport ∈ t.core.vault.latencies := by
      simp [ExtTreeMap.mem_iff_isSome_getElem?, recorded]
    obtain ⟨latency', current, known, at_now, ⟨source, lt, stored⟩, -⟩ :=
      backed.start_row sound ample planned there (standing.stored backed there)
    obtain rfl := Option.some.inj (recorded.symm.trans known)
    have allow := sound.recorded _ _ known
    obtain ⟨trio, held, periods⟩ := Option.map_eq_some_iff.1
      (planned.periods_held known (ample.roomy _ _ _ allow at_now) at_now (ample.pos _ _ allow) lt
        ((hasPeriod_values sound.rows).2 stored))
    exact ⟨trio, current, held, at_now, periods⟩
  | rotated _ _ _ rolls => simp at rolls

theorem standing_rotated {before : Nat} (only : ∀ l, allowed pair.transport l → l = latency)
    (standing : Standing origin pair latency t.core (some before))
    (effect : Effect suite now t .rotate .done c) : Standing origin pair latency c (some now) := by
  cases effect with
  | rotated _ plans =>
    have planned := sound.planned_held ample.fits plans
    obtain ⟨trio, -, there, -, -⟩ := standing
    obtain ⟨first, latency', current, known, at_now, lt, row, -⟩ :=
      backed.rotate_row sound ample planned there
    have allow := sound.latencies _ _ known
    obtain rfl := only latency' allow
    obtain ⟨trio', held, periods⟩ := Option.map_eq_some_iff.1
      (planned.periods_held known (ample.roomy _ _ _ allow at_now) at_now (ample.pos _ _ allow) lt
        ((row first).2 (.inl rfl)))
    exact ⟨trio', current, held, at_now, periods⟩

end Rollovers

/-- What drops the held secrets leaves the vault alone. -/
theorem Effect.of_drops (effect : Effect suite now t act report c) (drops : act.Drops) :
    c = t.core ∨ c.vault = t.core.vault ∧ c.held = ∅ := by
  cases effect with
  | kept => exact .inl rfl
  | stopped | replaced | restarted => exact .inr ⟨rfl, rfl⟩
  | rotating _ _ _ rolls => rcases rolls with rfl | rfl <;> exact drops.elim
  | rotated _ _ _ rolls => rcases rolls with rfl | rfl <;> exact drops.elim
  | _ => exact drops.elim

theorem standing_dropped (backed : Backed t.core)
    (standing : Standing origin pair latency t.core renewed) (drops : act.Drops)
    (effect : Effect suite now t act report c) : Standing origin pair latency c none := by
  have stored := standing.stored backed
  rcases effect.of_drops drops with rfl | ⟨vault, -⟩
  · exact stored
  · simp only [Standing, Core.Stores, vault]
    exact stored

theorem Standing.mono {c' : Core} (standing : Standing origin pair latency c renewed)
    (held : c'.held[pair]? = c.held[pair]?) (tolerance : c'.tolerance = c.tolerance)
    (latencies : c'.vault.latencies = c.vault.latencies)
    (stored : ∀ p, c.Stores pair p → c'.Stores pair p) :
    Standing origin pair latency c' renewed := by
  cases renewed with
  | none => exact fun recorded => (standing (latencies ▸ recorded)).imp stored
  | some before =>
    obtain ⟨trio, current, there, at_then, periods⟩ := standing
    exact ⟨trio, current, held.trans there, tolerance ▸ at_then, periods⟩

theorem standing_spared (sound : Sound suite origin allowed t.core)
    (follows : act.Follows origin allowed) (standing : Standing origin pair latency t.core renewed)
    (spares : act.Spares pair) (effect : Effect suite now t act report c) :
    Standing origin pair latency c renewed := by
  cases effect with
  | kept => exact standing
  | @enrolling link _ _ _ _ at_now reached =>
    have other : link.toPair ≠ pair := spares
    have pos := Schedule.pos_of_periodAt at_now
    exact standing.mono rfl rfl rfl fun p =>
      (mem_enrolled_of_ne sound follows pos reached other.symm).2
  | @enrolled link _ _ _ _ _ _ at_now reached =>
    have other : link.toPair ≠ pair := spares
    have pos := Schedule.pos_of_periodAt at_now
    refine standing.mono ?_ rfl rfl fun p =>
      (mem_enrolled_of_ne sound follows pos (.inr reached) other.symm).2
    rw [ExtTreeMap.getElem?_insert, if_neg (by simpa using other)]
  | transportUp => exact standing.mono rfl rfl rfl fun _ => id
  | issued => exact standing.mono rfl rfl rfl fun p stored => ExtTreeMap.mem_insert.2 (.inr stored)
  | recognized => exact standing.mono rfl rfl rfl fun p => (Vault.mem_withWindow _ _ _ _).2
  | rotating _ _ _ rolls => rcases rolls with rfl | rfl <;> exact spares.elim
  | rotated _ _ _ rolls => rcases rolls with rfl | rfl <;> exact spares.elim
  | _ => exact spares.elim

/-! ## What is listed -/

/-- The held secrets of the pair are listed. -/
def Displayed (pair : Pair) (c : Core) : Prop :=
  ∀ trio : Trio, c.held[pair]? = some trio → ∀ turn x, trio.get turn = some x →
    x.id ∈ c.directory.listings

theorem displayed_enrolled {link : Link} {latency : Nat} {handshake : Key}
    (unopposed : Unopposed t.core)
    (effect : Effect suite now t (.enroll link latency handshake) .done c) :
    Displayed link.toPair c := by
  cases effect with
  | enrolled at_now reached offered =>
    obtain ⟨rfl, -⟩ := offered.of_willing unopposed.willing
    intro trio there turn x stands
    rw [ExtTreeMap.getElem?_insert_self] at there
    obtain rfl := Option.some.inj there
    exact Directory.mem_listings_addAll.2 (.inl ⟨x, Trio.mem_secrets.2 ⟨turn, stands⟩, rfl⟩)
  | rotated _ _ _ rolls => simp at rolls

theorem displayed_started (effect : Effect suite now t .start .done c) : Displayed pair c := by
  cases effect with
  | started =>
    intro trio there turn x stands
    exact Directory.mem_listings_addAll.2
      (.inl ⟨x, mem_heldSecrets.2 ⟨pair, trio, turn, there, stands⟩, rfl⟩)
  | rotated _ _ _ rolls => simp at rolls

theorem displayed_rotated (sound : Sound suite origin allowed t.core)
    (fits : Fits origin t.core.tolerance allowed now) (unopposed : Unopposed t.core)
    (effect : Effect suite now t .rotate .done c) (displayed : Displayed pair t.core) :
    Displayed pair c := by
  cases effect with
  | rotated quiet plans offered =>
    obtain rfl := unopposed.taken_eq offered
    intro trio there turn x stands
    have orderly := fits.orderly sound.latencies sound.genuine_held sound.distinct_held
    have planned := sound.planned_held fits plans
    obtain ⟨first, row⟩ := aligned_held planned sound.genuine_held there
    have own : x.pair = pair := (row turn x stands).1
    refine Directory.mem_listings_addAll.2 ?_
    rcases (orderly.linked.holds_iff plans).1
        ⟨x, mem_heldSecrets.2 ⟨pair, trio, turn, there, stands⟩, rfl⟩ with
      ⟨y, mem, named, stays⟩ | created
    · refine .inr (Directory.mem_listings_removeAll.2 ⟨?_, ?_⟩)
      · obtain ⟨pair', trio', turn', there', stands'⟩ := mem_heldSecrets.1 mem
        obtain ⟨first', row'⟩ := sound.held pair' trio' there'
        obtain rfl : pair' = pair :=
          (row' turn' y stands').1.symm.trans ((congrArg PeriodId.toPair named).trans own)
        rw [← named]
        exact displayed trio' there' turn' y stands'
      · simpa [Rollover.summary, Rollover.sortIds] using stays
    · exact .inl created

theorem displayed_dropped (effect : Effect suite now t act report c) (drops : act.Drops)
    (displayed : Displayed pair t.core) : Displayed pair c := by
  rcases effect.of_drops drops with rfl | ⟨-, held⟩
  · exact displayed
  · intro trio there
    simp [held] at there

theorem displayed_spared (sound : Sound suite origin allowed t.core)
    (follows : act.Follows origin allowed) (effect : Effect suite now t act report c)
    (spares : act.Spares pair) (displayed : Displayed pair t.core) : Displayed pair c := by
  cases effect with
  | kept => exact displayed
  | enrolling => exact displayed
  | @enrolled link _ _ _ _ _ _ at_now reached offered =>
    have other : link.toPair ≠ pair := spares
    intro trio there turn x stands
    rw [ExtTreeMap.getElem?_insert, if_neg (by simpa using other)] at there
    obtain ⟨first, row⟩ := sound.held pair trio there
    refine Directory.mem_listings_addAll.2 (.inr (Directory.mem_listings_removeAll.2
      ⟨displayed trio there turn x stands, fun stale => other ?_⟩))
    have own := (mem_staleIds_derived sound follows (Schedule.pos_of_periodAt at_now) stale).1
    exact own.symm.trans (row turn x stands).1
  | transportUp => exact displayed
  | issued => exact displayed
  | recognized recognizes =>
    obtain ⟨listing, entered, tag, there, -, -, -, rfl⟩ := recognizes.listed
    intro trio held turn x stands
    refine (Registry.mem_listings_advance ?_).2 (displayed trio held turn x stands)
    rw [ExtTreeMap.mem_iff_isSome_getElem?, there, Option.isSome_some]
  | rotating _ _ _ rolls => rcases rolls with rfl | rfl <;> exact spares.elim
  | rotated _ _ _ rolls => rcases rolls with rfl | rfl <;> exact spares.elim
  | _ => exact spares.elim

/-! ## Runs -/

/-- The secrets are genuine and complete, and the directory takes them all. -/
structure Upright (suite : Suite) (origin : Pair → Origin) (allowed : Transport → Nat → Prop)
    (c : Core) : Prop where
  sound : Sound suite origin allowed c
  backed : Backed c
  unopposed : Unopposed c

theorem Upright.run {s : Station} {acts : List (Nat × Act)}
    (upright : Upright suite origin allowed s.core)
    (follows : ∀ act ∈ acts, act.2.Follows origin allowed)
    (ample : ∀ act ∈ acts, Ample origin s.core.tolerance allowed act.1) :
    Upright suite origin allowed (s.run suite acts).core where
  sound := upright.sound.run follows fun act mem => (ample act mem).fits
  backed := upright.backed.run upright.sound follows ample
  unopposed := run_induction (fun t => Unopposed t.core)
    (fun t now act _ before => Unopposed.effect (effect_perform now act t) before) upright.unopposed

/-- The agenda has a running keyring do what a rotation does. -/
theorem run_rolls {s : Station} {acts : List (Nat × Act)}
    (rolls : act = .rotate ∨ act = .check ∧ (s.run suite acts).keyring.running = true) :
    s.run suite (acts ++ [(now, act)]) = s.run suite (acts ++ [(now, .rotate)]) := by
  simp only [run_append_singleton]
  rcases rolls with rfl | ⟨rfl, running⟩
  · rfl
  · exact check_eq running

variable (suite) in
theorem effect_last (acts : List (Nat × Act)) (now : Nat) (act : Act) (s : Station) :
    Effect suite now ((s.run suite acts).atTime now) act
      ((s.run suite acts).perform suite now act).1 (s.run suite (acts ++ [(now, act)])).core := by
  rw [run_append_singleton]
  exact effect_perform now act _

/-- After a course the pair is held as of its last renewal, and what is held of it is listed. -/
theorem Course.standing {s : Station} {acts : List (Nat × Act)}
    (course : Course suite origin pair latency s acts renewed)
    (only : ∀ l, allowed pair.transport l → l = latency)
    (upright : Upright suite origin allowed s.core)
    (follows : ∀ act ∈ acts, act.2.Follows origin allowed)
    (ample : ∀ act ∈ acts, Ample origin s.core.tolerance allowed act.1) :
    Standing origin pair latency (s.run suite acts).core renewed ∧
      Displayed pair (s.run suite acts).core := by
  -- The station before the last act is upright, and the last act is one that the station can take.
  have last {acts : List (Nat × Act)} {now : Nat} {act : Act}
      (follows : ∀ a ∈ acts ++ [(now, act)], a.2.Follows origin allowed)
      (ample : ∀ a ∈ acts ++ [(now, act)], Ample origin s.core.tolerance allowed a.1) :
      Upright suite origin allowed ((s.run suite acts).atTime now).core ∧
        act.Follows origin allowed ∧
        Ample origin ((s.run suite acts).atTime now).core.tolerance allowed now := by
    simp only [List.forall_mem_append, List.forall_mem_singleton] at follows ample
    exact ⟨upright.run follows.1 ample.1, follows.2, (tolerance_run acts s).symm ▸ ample.2⟩
  induction course with
  | @enrolled acts now done =>
    obtain ⟨upright', follows', -⟩ := last follows ample
    have effect := effect_last suite acts now
      (.enroll ((origin pair).link pair) latency (origin pair).handshake) s
    rw [done] at effect
    exact ⟨standing_enrolled upright'.sound follows' effect,
      displayed_enrolled upright'.unopposed effect⟩
  | @rotated acts act before now course rolls done ih =>
    obtain ⟨standing, displayed⟩ := ih (List.forall_mem_append.1 follows).1
      (List.forall_mem_append.1 ample).1
    obtain ⟨upright', -, ample'⟩ := last follows ample
    have effect := effect_last suite acts now .rotate s
    rw [done] at effect
    rw [run_rolls rolls]
    exact ⟨standing_rotated upright'.backed upright'.sound ample' only standing effect,
      displayed_rotated upright'.sound ample'.fits upright'.unopposed effect displayed⟩
  | @dropped acts act renewed now course drops ih =>
    obtain ⟨standing, displayed⟩ := ih (List.forall_mem_append.1 follows).1
      (List.forall_mem_append.1 ample).1
    obtain ⟨upright', -, -⟩ := last follows ample
    have effect := effect_last suite acts now act s
    exact ⟨standing_dropped upright'.backed standing drops effect,
      displayed_dropped effect drops displayed⟩
  | @started acts now renewed course recorded done ih =>
    obtain ⟨standing, -⟩ := ih (List.forall_mem_append.1 follows).1
      (List.forall_mem_append.1 ample).1
    obtain ⟨upright', -, ample'⟩ := last follows ample
    have effect := effect_last suite acts now .start s
    rw [done] at effect
    exact ⟨standing_started upright'.backed upright'.sound ample' standing recorded effect,
      displayed_started effect⟩
  | @spared acts act renewed now course spares ih =>
    obtain ⟨standing, displayed⟩ := ih (List.forall_mem_append.1 follows).1
      (List.forall_mem_append.1 ample).1
    obtain ⟨upright', follows', -⟩ := last follows ample
    have effect := effect_last suite acts now act s
    exact ⟨standing_spared upright'.sound follows' standing spares effect,
      displayed_spared upright'.sound follows' effect spares displayed⟩

end Station

end SealedStream
