import SealedStream.Stream.Opener

/-!
# What opens

A header opens under a number exactly if it is the sealed encoding of a valid header, and a body
exactly if it is a payload of the announced length with zeros after it, sealed.

## Main statements

* `Frame.Header.decode_eq_ok_iff` — four bytes are a header, or its encoding.
* `Opener.headerAt_eq_ok_iff`, `Opener.body_eq_ok_iff` — the two parts of a frame.
-/

namespace SealedStream

open Bytes

/-! ## Headers -/

namespace Frame

/-- A header of this version whose payload fits into a frame. -/
structure Header.Valid (h : Header) : Prop where
  version : h.version = Frame.version
  short : h.payload.toNat ≤ maxPayload

/-- Flags without reserved bits are one of the two that a header is written with. -/
theorem flags_eq {flags : UInt8} (clear : flags &&& ~~~lastFlag = 0) :
    flags = if flags &&& lastFlag ≠ 0 then lastFlag else 0 := by
  have all : ∀ n : Fin 256, UInt8.ofFin n &&& ~~~lastFlag = 0 →
      UInt8.ofFin n = if UInt8.ofFin n &&& lastFlag ≠ 0 then lastFlag else 0 := by decide +kernel
  exact all flags.toFin clear

theorem bigEndian_two (high low : UInt8) :
    bigEndian 2 (UInt16.ofNat (ofBigEndian [high, low])).toNat = [high, low] := by
  have hh := high.toNat_lt
  have hl := low.toNat_lt
  have value : (UInt16.ofNat (ofBigEndian [high, low])).toNat = high.toNat * 256 + low.toNat := by
    simp [ofBigEndian]
    omega
  rw [value]
  simp only [bigEndian, List.nil_append, List.cons_append, List.cons.injEq, and_true]
  constructor
  · rw [show (high.toNat * 256 + low.toNat) / 256 = high.toNat by omega, UInt8.ofNat_toNat]
  · rw [← UInt8.toNat_inj, UInt8.toNat_ofNat']
    omega

/-- Four bytes decode to a header exactly if the header is valid and they are its encoding. -/
theorem Header.decode_eq_ok_iff {plain : Bytes} (length : plain.length = headerLength) {h : Header} :
    decode plain = .ok h ↔ h.Valid ∧ plain = h.encode := by
  constructor
  · intro decoded
    obtain ⟨v, flags, high, low, rfl⟩ : ∃ v flags high low, plain = [v, flags, high, low] := by
      match plain, length with
      | [v, flags, high, low], _ => exact ⟨v, flags, high, low, rfl⟩
    simp only [decode] at decoded
    split at decoded
    · cases decoded
    rename_i version
    split at decoded
    · cases decoded
    rename_i clear
    split at decoded
    · cases decoded
    rename_i short
    cases decoded
    have value : (UInt16.ofNat (ofBigEndian [high, low])).toNat = ofBigEndian [high, low] := by
      rw [UInt16.toNat_ofNat', Nat.mod_eq_of_lt]
      unfold maxPayload at short
      omega
    refine ⟨⟨Classical.not_not.1 version, by rw [value]; omega⟩, ?_⟩
    simp only [encode, bigEndian_two, List.cons_append, List.nil_append, List.cons.injEq, true_and,
      and_true, decide_eq_true_eq]
    exact flags_eq (Classical.not_not.1 clear)
  · rintro ⟨valid, rfl⟩
    exact Header.decode_encode valid.version valid.short

/-- The header that a frame is written with. -/
def headerOf (payload : Bytes) (last : Bool) : Header :=
  ⟨Frame.version, last, UInt16.ofNat payload.length⟩

section HeaderOf

variable {payload : Bytes} {last : Bool}

theorem payload_headerOf (short : payload.length ≤ maxPayload) :
    (headerOf payload last).payload.toNat = payload.length := by
  unfold maxPayload at short
  simp only [headerOf, UInt16.toNat_ofNat']
  omega

theorem valid_headerOf (short : payload.length ≤ maxPayload) : (headerOf payload last).Valid :=
  ⟨rfl, Nat.le_trans (Nat.le_of_eq (payload_headerOf short)) short⟩

theorem length_sealHeader {suite : Suite} {key : Key} {number : Nat} {header : Header} :
    (sealPart suite key number .header header.encode).length = sealedHeaderLength := by
  simp [Header.encode, sealedHeaderLength, macLength]

theorem sealWhole_eq {suite : Suite} {key : Key} {number padding : Nat} :
    sealWhole suite key number payload padding last =
      sealPart suite key number .header (headerOf payload last).encode ++
        sealPart suite key number .body (payload ++ zeros padding) := rfl

theorem take_sealWhole {suite : Suite} {key : Key} {number padding : Nat} :
    (sealWhole suite key number payload padding last).take sealedHeaderLength =
      sealPart suite key number .header (headerOf payload last).encode :=
  List.take_left' length_sealHeader

end HeaderOf

/-- A sealed part opens to one text only. -/
theorem sealPart_inj {suite : Suite} {key : Key} {number : Nat} {part : Part} {a b : Bytes} :
    sealPart suite key number part a = sealPart suite key number part b ↔ a = b := by
  constructor
  · intro same
    have opens := openPart?_eq_some_iff.2 same
    rw [openPart?_eq_some_iff.2 rfl, Option.some.injEq] at opens
    exact opens
  · rintro rfl
    rfl

end Frame

/-! ## Parts -/

/-- Bytes without a nonzero one are a run of zeros. -/
theorem padded_iff {bs : Bytes} : bs = zeros bs.length ↔ ¬ bs.any (· ≠ 0) := by
  simp [zeros, List.eq_replicate_iff]

namespace Opener

variable {suite : Suite} {o o' : Opener} {key : Key} {number : Nat} {header : Frame.Header}
  {sealed : Bytes} {f : Frame}

theorem headerAt_eq_ok_iff (kept : o.key? = some key) (covers : o.window.Covers number)
    (fresh : ¬ o.window.Seen number) (length : sealed.length = Frame.sealedHeaderLength) :
    o.headerAt suite number sealed = .ok header ↔
      header.Valid ∧ sealed = Frame.sealPart suite key number .header header.encode := by
  have known : ¬ (¬ o.window.Covers number ∨ o.window.Seen number) := by simp [covers, fresh]
  simp only [headerAt, headerKey, kept, length, headerUnder, ne_eq, not_true_eq_false, if_false,
    pure_bind, known]
  cases opened : Frame.openPart? suite key number .header sealed with
  | none =>
    simp only [pure_bind]
    constructor
    · rintro ⟨⟩
    · rintro ⟨-, rfl⟩
      simp [Frame.openPart?_eq_some_iff.2 rfl] at opened
  | some plain =>
    obtain rfl := Frame.openPart?_eq_some_iff.1 opened
    have wide : plain.length = Frame.headerLength := by
      rw [Frame.length_sealPart, Frame.sealedHeaderLength, macLength] at length
      rw [Frame.headerLength]
      omega
    rw [Frame.sealPart_inj, ← Frame.Header.decode_eq_ok_iff wide]
    cases decoded : Frame.Header.decode plain with
    | error fault =>
      simp only [decoded]
      constructor <;> rintro ⟨⟩
    | ok header' =>
      simp only [decoded, pure_bind]
      constructor <;> (rintro ⟨⟩; rfl)

/-- What a sealed body opens to is split where its header says. -/
theorem body_eq_ok_iff {window : SeenWindow} {entered : List Nat} (kept : o.key? = some key)
    (marks : o.window.mark? number = some (window, entered)) :
    o.body suite number header sealed = .ok (f, o') ↔
      (∃ padding, sealed = Frame.sealPart suite key number .body (f.payload ++ zeros padding)) ∧
        f.payload.length = header.payload.toNat ∧ f.number = number ∧ f.last = header.last ∧
        o' = { o with window } := by
  simp only [body, kept, marks]
  constructor
  · intro opened
    split at opened
    · cases opened
    split at opened
    · cases opened
    rename_i wide short
    cases opens : Frame.openPart? suite key number .body sealed with
    | none =>
      simp only [opens] at opened
      cases opened
    | some plain =>
      simp only [opens] at opened
      obtain rfl := Frame.openPart?_eq_some_iff.1 opens
      split at opened
      · cases opened
      rename_i clear
      cases opened
      rw [Frame.length_sealPart, Nat.add_sub_cancel] at short
      have padded := padded_iff.2 clear
      refine ⟨⟨_, by rw [← padded, List.take_append_drop]⟩, ?_, rfl, rfl, rfl⟩
      rw [List.length_take]
      omega
  · rintro ⟨⟨padding, rfl⟩, announced, rfl, last, rfl⟩
    have wide : ¬ (Frame.sealPart suite key f.number .body (f.payload ++ zeros padding)).length <
        macLength := by simp
    have short : ¬ (Frame.sealPart suite key f.number .body (f.payload ++ zeros padding)).length -
        macLength < header.payload.toNat := by simp [announced]
    have clear : ¬ ((f.payload ++ zeros padding).drop header.payload.toNat).any (· ≠ 0) := by
      rw [← announced, List.drop_left]
      simp [zeros]
    rw [if_neg wide, if_neg short, Frame.openPart?_eq_some_iff.2 rfl]
    simp only [if_neg clear]
    rw [← announced, List.take_left, ← last]
    rfl

end Opener

end SealedStream
