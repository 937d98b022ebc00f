import Mathlib.Algebra.Group.Nat.Defs
import Mathlib.Data.List.Nodup
import SealedStream.Proofs.Stream.Writing

/-!
# The seals of a stream

Every frame that gets as far as the sink was sealed twice, header and body, under the frame key of the
stream and a nonce of its own. One sender never uses a nonce twice: it counts its frames, and a frame
that the sink did not take whole is its last.

## Main definitions

* `Sender.seals` — the frame keys and nonces of the frames that some sheets make.
* `Sender.Fresh` — a sender that has just begun its stream.

## Main statements

* `Frame.nonce_injective` — different parts of a stream's frames have different nonces.
* `Sender.seals_eq` — a sender seals the frames of consecutive numbers, and no more than fit.
* `Sender.Fresh.nodup` — on one stream no key and nonce are used twice.
-/

namespace SealedStream

open Bytes SealedStream.Action

/-! ## Nonces -/

namespace Bytes

theorem bigEndian_injective {width n m : Nat} (hn : n < 256 ^ width) (hm : m < 256 ^ width)
    (same : bigEndian width n = bigEndian width m) : n = m := by
  induction width generalizing n m with
  | zero =>
    rw [Nat.pow_zero] at hn hm
    omega
  | succ width ih =>
    rw [Nat.pow_succ] at hn hm
    obtain ⟨front, back⟩ := List.append_inj' same rfl
    have high : n / 256 = m / 256 :=
      ih (Nat.div_lt_of_lt_mul (by omega)) (Nat.div_lt_of_lt_mul (by omega)) front
    have low : n % 256 = m % 256 := by
      have := congrArg UInt8.toNat (List.cons.inj back).1
      rwa [UInt8.toNat_ofNat', UInt8.toNat_ofNat'] at this
    omega

end Bytes

namespace Frame

/-- Different parts of the frames of a stream have different nonces. -/
theorem nonce_injective {n m : Nat} {p q : Part} (hn : n ≤ Count.top) (hm : m ≤ Count.top)
    (same : nonce n p = nonce m q) : n = m ∧ p = q := by
  obtain ⟨number, part⟩ := List.append_inj same (by simp)
  unfold Count.top at hn hm
  refine ⟨bigEndian_injective (by omega) (by omega) number, ?_⟩
  have byte := (List.cons.inj part).1
  cases p <;> cases q <;> first | rfl | cases byte

/-- The seals of a frame under a key: those of its header and of its body. -/
def seals (key : Key) (number : Nat) : List (Key × Bytes) :=
  [(key, nonce number .header), (key, nonce number .body)]

end Frame

/-! ## Senders -/

namespace Sender

/-- The frame that a sheet makes gets as far as the sink. -/
def Reaches (suite : Suite) (sheet : Sheet) (s : Sender) : Prop :=
  match (write suite sheet).toExcept s with
  | (.ok _, t) => s.written < t.written
  | (.error (.io _), _) => True
  | _ => False

instance (suite : Suite) (sheet : Sheet) (s : Sender) : Decidable (Reaches suite sheet s) := by
  unfold Reaches
  split <;> infer_instance

/-- The frame keys and nonces of the frames that get as far as the sink when the sheets are written one
after the other. -/
def seals (suite : Suite) : List Sheet → Sender → List (Key × Bytes)
  | [], _ => []
  | sheet :: sheets, s =>
    (if Reaches suite sheet s then s.key?.elim [] (Frame.seals · s.written) else []) ++
      seals suite sheets ((write suite sheet).toExcept s).2

variable {suite : Suite} {s t : Sender} {sheet : Sheet} {sheets : List Sheet} {key : Key}

theorem reaches_iff {r : Except StreamFault Unit} (ends : (write suite sheet).Ends s r t) :
    Reaches suite sheet s ↔
      (r = .ok () ∧ s.written < t.written) ∨ ∃ fault, r = .error (.io fault) := by
  rw [Reaches, ends]
  match r with
  | .ok () => simp
  | .error (.io fault) => simp
  | .error (.frame _) | .error .forged | .error .unknownTag | .error .cutShort
  | .error (.misfit ..) | .error (.overCapacity ..) | .error (.badFrameLength _) | .error .wiped
  | .error (.crypto _) | .error (.store _) => simp

/-- Without a key nothing is sealed. -/
theorem seals_of_wiped (wiped : s.key? = none) : s.seals suite sheets = [] := by
  induction sheets with
  | nil => rfl
  | cons sheet sheets ih =>
    have same : ((write suite sheet).toExcept s).2 = s := by
      rcases write_cases (ends_toExcept (write suite sheet) s) with ⟨same, -⟩ | ⟨key, kept, -⟩
      · exact same
      · cases wiped.symm.trans kept
    rw [seals, same, ih, wiped]
    simp

/-- A sender seals frames of consecutive numbers, each at most once, and no more than its capacity
holds. -/
theorem seals_eq (suite : Suite) (sheets : List Sheet) (kept : s.key? = some key) :
    ∃ count, Frame.minLength * count ≤ s.capacity ∧
      s.seals suite sheets = (List.range' s.written count).flatMap (Frame.seals key) := by
  induction sheets generalizing s with
  | nil => exact ⟨0, Nat.zero_le _, rfl⟩
  | cons sheet sheets ih =>
    have ends := ends_toExcept (write suite sheet) s
    have reaches := reaches_iff ends
    have long : Frame.minLength ≤ sheet.length :=
      Nat.le_trans (Nat.le_add_right _ _) (Nat.le_add_right _ _)
    rw [seals]
    rcases write_cases ends with ⟨same, -, no_io⟩ | ⟨key', kept', -, fits, done⟩
    · rw [same] at reaches ⊢
      rw [if_neg (by simp [reaches, no_io]), List.nil_append]
      exact ih kept
    obtain rfl := Option.some.inj (kept.symm.trans kept')
    rw [kept, Option.elim_some]
    rcases done with ⟨sink, -, ok, after⟩ | ⟨fault, sink, -, failed, after⟩
    · rw [if_pos (reaches.2 (.inl ⟨ok, by rw [after]; exact Nat.lt_succ_self _⟩)), after]
      obtain ⟨count, le, eq⟩ := ih (s := counted sheet sink s) kept
      refine ⟨count + 1, ?_, by rw [eq]; rfl⟩
      have le : Frame.minLength * count ≤ s.capacity - sheet.length := le
      rw [Nat.mul_succ]
      omega
    · rw [if_pos (reaches.2 (.inr ⟨fault, failed⟩)), after, seals_of_wiped rfl]
      exact ⟨1, by omega, rfl⟩

/-! ## Streams from their beginning -/

/-- The sender has the frame key of its stream and has written no frame yet. -/
structure Fresh (suite : Suite) (ticket : Ticket) (capacity : Nat) (s : Sender) : Prop where
  key : s.key? = some (suite.frameKey ticket.side ticket.stream ticket.key)
  written : s.written = 0
  capacity : s.capacity ≤ capacity

variable {ticket : Ticket} {capacity frameLength : Nat} {sink : Sink}

theorem fresh_opening (begins : opening suite ticket capacity frameLength sink = .ok s) :
    s.Fresh suite ticket capacity := by
  rw [of_opening begins]
  exact ⟨rfl, rfl, Nat.sub_le _ _⟩

theorem fresh_answering (begins : answering suite ticket capacity frameLength sink = .ok s) :
    s.Fresh suite ticket capacity := by
  rw [of_answering begins]
  exact ⟨rfl, rfl, Nat.le_refl _⟩

namespace Fresh

variable (fresh : s.Fresh suite ticket capacity)
include fresh

theorem key_of_mem {used : Key × Bytes} (mem : used ∈ s.seals suite sheets) :
    used.1 = suite.frameKey ticket.side ticket.stream ticket.key := by
  obtain ⟨count, -, eq⟩ := seals_eq suite sheets fresh.key
  rw [eq, List.mem_flatMap] at mem
  obtain ⟨number, -, mem⟩ := mem
  simp only [Frame.seals, List.mem_cons, List.not_mem_nil, or_false] at mem
  rcases mem with rfl | rfl <;> rfl

/-- A sender that seals anything seals the header of frame zero. -/
theorem first_mem (any : s.seals suite sheets ≠ []) :
    (suite.frameKey ticket.side ticket.stream ticket.key, Frame.nonce 0 .header) ∈
      s.seals suite sheets := by
  obtain ⟨count, -, eq⟩ := seals_eq suite sheets fresh.key
  rw [eq, fresh.written] at any ⊢
  cases count with
  | zero => exact absurd rfl any
  | succ count => exact List.mem_flatMap.2 ⟨0, by simp, List.mem_cons_self⟩

/-- No key and nonce are used twice on one stream. -/
theorem nodup (count : capacity ≤ Count.top) : (s.seals suite sheets).Nodup := by
  obtain ⟨k, le, eq⟩ := seals_eq suite sheets fresh.key
  have bound {n : Nat} (mem : n ∈ List.range' 0 k) : n ≤ Count.top := by
    have := fresh.capacity
    rw [← List.range_eq_range', List.mem_range] at mem
    unfold Frame.minLength at le
    omega
  rw [eq, fresh.written, List.nodup_flatMap]
  constructor
  · intro n mem
    have apart : Frame.nonce n .header ≠ Frame.nonce n .body := by
      intro same
      cases (Frame.nonce_injective (bound mem) (bound mem) same).2
    simp [Frame.seals, apart]
  · refine List.Pairwise.imp_of_mem ?_ List.nodup_range'
    intro n m mem mem' ne used there there'
    simp only [Frame.seals, List.mem_cons, List.not_mem_nil, or_false] at there there'
    have same (p q : Frame.Part) (eq : Frame.nonce n p = Frame.nonce m q) : n = m :=
      (Frame.nonce_injective (bound mem) (bound mem') eq).1
    rcases there with rfl | rfl <;> rcases there' with eq | eq
    all_goals exact ne (same _ _ (Prod.mk.inj eq).2)

end Fresh

end Sender

end SealedStream
