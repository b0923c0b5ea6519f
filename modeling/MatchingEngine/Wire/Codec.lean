import MatchingEngine.Lib.Outcome
import MatchingEngine.Lib.Bytes
import MatchingEngine.Lib.Frames
import MatchingEngine.Core.Types

/-!
# Tags, lengths and fields on the wire

`wire::tag` and `wire::codec`. A message is a tag byte and fixed-width fields at fixed
offsets, integers little-endian; the tag alone gives the message's length, and inbound
and outbound tags share one table. Reading outside the frame panics, reading a byte that
is no value of its type refuses the message.
-/

namespace MatchingEngine

/-- What clients send. -/
@[match_pattern] def tagNewOrder : UInt8 := 1
@[match_pattern] def tagCancelOrder : UInt8 := 2
@[match_pattern] def tagCancelReplace : UInt8 := 3
@[match_pattern] def tagMassCancel : UInt8 := 4
@[match_pattern] def tagKillSwitch : UInt8 := 5
@[match_pattern] def tagSnapshot : UInt8 := 6

/-- What they are sent: reports, market data, snapshot rows. -/
@[match_pattern] def tagAccepted : UInt8 := 10
@[match_pattern] def tagRejected : UInt8 := 11
@[match_pattern] def tagFilled : UInt8 := 12
@[match_pattern] def tagCancelled : UInt8 := 13
@[match_pattern] def tagReplaced : UInt8 := 14
@[match_pattern] def tagTrade : UInt8 := 15
@[match_pattern] def tagBookUpdate : UInt8 := 16
@[match_pattern] def tagSnapshotLevel : UInt8 := 17
@[match_pattern] def tagSnapshotAccount : UInt8 := 18
@[match_pattern] def tagSnapshotSummary : UInt8 := 19

/-- Tag, order, account, side, price, quantity, kind, time in force, client time stamp. -/
def newOrderLen : ℕ := 44
/-- Tag, order, account. -/
def cancelOrderLen : ℕ := 17
/-- Tag, order, account, new price, new quantity. -/
def cancelReplaceLen : ℕ := 33
/-- Tag, account. -/
def massCancelLen : ℕ := 9
/-- Tag, the switch. -/
def killSwitchLen : ℕ := 2
def snapshotLen : ℕ := 1

/-- Tag, the two sequence numbers, account, order, resting quantity. -/
def acceptedLen : ℕ := 41
/-- Tag, the two sequence numbers, account, order, reason. -/
def rejectedLen : ℕ := 34
/-- Tag, the two sequence numbers, account, order, side, price, quantity, resting quantity, state. -/
def filledLen : ℕ := 59
/-- Tag, the two sequence numbers, account, order. -/
def cancelledLen : ℕ := 33
/-- Tag, the two sequence numbers, account, order, new quantity, whether priority was kept. -/
def replacedLen : ℕ := 42
/-- Tag, stream number, price, quantity, taker's side. -/
def tradeLen : ℕ := 26
/-- Tag, stream number, and for each side whether there is a best price, the price and its quantity. -/
def bookUpdateLen : ℕ := 43
/-- Tag, stream number, side, price, quantity, number of orders. -/
def snapshotLevelLen : ℕ := 34
/-- Tag, stream number, account, number of orders, notional in 16 bytes. -/
def snapshotAccountLen : ℕ := 41
/-- Tag, stream number, both sides of the touch, the last trade if there was one, the two counts. -/
def snapshotSummaryLen : ℕ := 68

/-- The length a tag implies. -/
def messageLen (tag : UInt8) : Option ℕ :=
  match tag with
  | tagNewOrder => some newOrderLen
  | tagCancelOrder => some cancelOrderLen
  | tagCancelReplace => some cancelReplaceLen
  | tagMassCancel => some massCancelLen
  | tagKillSwitch => some killSwitchLen
  | tagSnapshot => some snapshotLen
  | tagAccepted => some acceptedLen
  | tagRejected => some rejectedLen
  | tagFilled => some filledLen
  | tagCancelled => some cancelledLen
  | tagReplaced => some replacedLen
  | tagTrade => some tradeLen
  | tagBookUpdate => some bookUpdateLen
  | tagSnapshotLevel => some snapshotLevelLen
  | tagSnapshotAccount => some snapshotAccountLen
  | tagSnapshotSummary => some snapshotSummaryLen
  | _ => none

/-- The tags `decode_command` knows. -/
def inboundTags : List UInt8 :=
  [tagNewOrder, tagCancelOrder, tagCancelReplace, tagMassCancel, tagKillSwitch, tagSnapshot]

/-- The tags `decode_event` knows. -/
def outboundTags : List UInt8 :=
  [tagAccepted, tagRejected, tagFilled, tagCancelled, tagReplaced, tagTrade, tagBookUpdate, tagSnapshotLevel,
    tagSnapshotAccount, tagSnapshotSummary]

/-- The table has both directions and nothing else. -/
theorem messageLen_isSome {tag : UInt8} {n : ℕ} (h : messageLen tag = some n) :
    tag ∈ inboundTags ∨ tag ∈ outboundTags := by
  unfold messageLen at h
  split at h
  all_goals first
    | exact .inl (by decide)
    | exact .inr (by decide)
    | cases h

/-- A message has its tag at least. -/
theorem messageLen_pos {tag : UInt8} {n : ℕ} (h : messageLen tag = some n) : 0 < n := by
  unfold messageLen at h
  split at h
  all_goals first
    | (cases h; decide)
    | cases h

/-- A decoder: a value, a refusal, or a panic. -/
abbrev Decode := ExceptT RejectReason (Except Panic)

/-- The decoder panics. -/
def Decode.abort {α : Type} (p : Panic) : Decode α := ExceptT.mk (.error p)

/-- `buf[offset]`. -/
def readU8 (buf : List UInt8) (offset : ℕ) : Decode UInt8 :=
  match buf[offset]? with
  | some b => pure b
  | none => .abort .indexOutOfRange

/-- The little-endian integer in `buf[offset..offset + width]`. -/
def readLe (width : ℕ) (buf : List UInt8) (offset : ℕ) : Decode ℕ :=
  if offset + width ≤ buf.length then pure (leValue ((buf.drop offset).take width))
  else .abort .indexOutOfRange

/-- `buf[offset..offset + bytes.len()].copy_from_slice(bytes)`. -/
def writeBytes (buf : List UInt8) (offset : ℕ) (bytes : List UInt8) : Except Panic (List UInt8) :=
  if offset + bytes.length ≤ buf.length then .ok (splice buf offset bytes) else .error .indexOutOfRange

/-- Writes in program order, each at its own offset. -/
def writeFields (buf : List UInt8) (fields : List (ℕ × List UInt8)) : Except Panic (List UInt8) :=
  fields.foldlM (fun buf field => writeBytes buf field.1 field.2) buf

/-- One byte at an offset. -/
def writeU8 (offset : ℕ) (value : UInt8) : ℕ × List UInt8 := (offset, [value])

/-- Eight bytes, the lowest first. -/
def writeU64 (offset value : ℕ) : ℕ × List UInt8 := (offset, leBytes 8 value)

/-- Sixteen bytes, the lowest first. -/
def writeU128 (offset value : ℕ) : ℕ × List UInt8 := (offset, leBytes 16 value)

/-- A byte, zero or one. -/
def writeBool (offset : ℕ) (value : Bool) : ℕ × List UInt8 := (offset, [if value then 1 else 0])

/-- Eight bytes. -/
def readU64 : List UInt8 → ℕ → Decode ℕ := readLe 8

/-- Sixteen bytes. -/
def readU128 : List UInt8 → ℕ → Decode ℕ := readLe 16

/-- An enumeration in one byte: the index of the value, and no other byte. -/
def enumFromU8 {α : Type} (values : List α) (value : UInt8) : Decode α :=
  match values[value.toNat]? with
  | some a => pure a
  | none => throw .malformedMessage

/-- The byte of an enumeration's value. -/
def enumToU8 {α : Type} [DecidableEq α] (values : List α) (a : α) : UInt8 := .ofNat (values.idxOf a)

/-- A byte that is zero or one, or the message is refused. -/
def readBool (buf : List UInt8) (offset : ℕ) : Decode Bool :=
  readU8 buf offset >>= enumFromU8 [false, true]

/-- The enumerations of the protocol, by their bytes. -/
def sideFromU8 : UInt8 → Decode Side := enumFromU8 [.buy, .sell]

def orderKindFromU8 : UInt8 → Decode OrderKind := enumFromU8 [.limit, .market]

def tifFromU8 : UInt8 → Decode Tif := enumFromU8 [.gtc, .ioc, .fok, .postOnly]

def fillStateFromU8 : UInt8 → Decode FillState := enumFromU8 [.partiallyFilled, .filled]

def rejectReasonFromU8 : UInt8 → Decode RejectReason :=
  enumFromU8 [.malformedMessage, .unknownMessageType, .duplicateOrderId, .unknownOrderId, .zeroQuantity, .wouldCross,
    .notFullyFillable, .killSwitchActive, .maxOpenOrders, .maxNotional, .priceBandViolation, .zeroPrice]

/-- The bytes of the enumerations. -/
def sideToU8 : Side → UInt8 := enumToU8 [.buy, .sell]

def orderKindToU8 : OrderKind → UInt8 := enumToU8 [.limit, .market]

def tifToU8 : Tif → UInt8 := enumToU8 [.gtc, .ioc, .fok, .postOnly]

def fillStateToU8 : FillState → UInt8 := enumToU8 [.partiallyFilled, .filled]

/-- `reason as u8`: the declared discriminants. -/
def rejectReasonToU8 : RejectReason → UInt8 :=
  enumToU8 [.malformedMessage, .unknownMessageType, .duplicateOrderId, .unknownOrderId, .zeroQuantity, .wouldCross,
    .notFullyFillable, .killSwitchActive, .maxOpenOrders, .maxNotional, .priceBandViolation, .zeroPrice]

/-- `MAX_MESSAGE_LEN`: what a buffer to encode into must hold. -/
def maxMessageLen : ℕ := snapshotSummaryLen

/-- Every message fits a buffer of `MAX_MESSAGE_LEN` bytes. -/
theorem messageLen_le {tag : UInt8} {n : ℕ} (h : messageLen tag = some n) : n ≤ maxMessageLen := by
  unfold messageLen at h
  split at h
  all_goals first
    | (cases h; decide)
    | cases h

/-- The beginning of both decoders: a tag, and the frame as long as it says. -/
def frameTag (frame : List UInt8) : Decode UInt8 :=
  match frame.head? with
  | none => throw .malformedMessage
  | some tag =>
    match messageLen tag with
    | none => throw .unknownMessageType
    | some expectedLen => if frame.length ≠ expectedLen then throw .malformedMessage else pure tag

/-- A whole frame with one of the given tags. -/
def Tagged (tags : List UInt8) (frame : List UInt8) : Prop :=
  ∃ tag ∈ tags, frame.head? = some tag ∧ messageLen tag = some frame.length

instance (tags frame : List UInt8) : Decidable (Tagged tags frame) := by
  unfold Tagged
  infer_instance

section Reads

variable {buf : List UInt8} {offset : ℕ}

/-- A read inside the frame does not panic; and so for the readers below. -/
theorem readU8_returns (h : offset < buf.length) : Returns (readU8 buf offset) (fun _ => True) := by
  unfold readU8
  rw [List.getElem?_eq_getElem h]
  exact .pure trivial

theorem readLe_returns {width : ℕ} (h : offset + width ≤ buf.length) :
    Returns (readLe width buf offset) (· < 256 ^ width) := by
  unfold readLe
  rw [if_pos h]
  have hlen : ((buf.drop offset).take width).length = width := by
    rw [List.length_take, List.length_drop]
    omega
  have hlt := leValue_lt ((buf.drop offset).take width)
  rw [hlen] at hlt
  exact .pure hlt

/-- A read past the end panics. -/
theorem readLe_abort {width : ℕ} (h : buf.length < offset + width) :
    readLe width buf offset = .abort .indexOutOfRange := by
  unfold readLe
  rw [if_neg (by omega)]

theorem readU64_returns (h : offset + 8 ≤ buf.length) : Returns (readU64 buf offset) (· < 2 ^ 64) :=
  readLe_returns h

theorem readU128_returns (h : offset + 16 ≤ buf.length) : Returns (readU128 buf offset) (· < 2 ^ 128) :=
  readLe_returns h

/-- A byte read and then mapped to an enumeration. -/
theorem readEnum_returns {α : Type} (values : List α) (h : offset < buf.length) :
    Returns (readU8 buf offset >>= enumFromU8 values) (fun _ => True) := by
  refine (readU8_returns h).bind fun b _ => ?_
  unfold enumFromU8
  cases values[b.toNat]? with
  | some a => exact .pure trivial
  | none => exact .throw _

/-- **What a read finds stands in the frame.** -/
theorem readLe_ok {width v : ℕ} (h : offset + width ≤ buf.length) :
    (readLe width buf offset).run = .ok (.ok v) ↔ v < 256 ^ width ∧ Holds buf offset (leBytes width v) := by
  unfold readLe
  rw [if_pos h, run_pure_ok, ← holds_leBytes_iff h]
  exact eq_comm

/-- What a read gives is what the frame holds there. -/
theorem readU64_ok {v : ℕ} (h : offset + 8 ≤ buf.length) :
    (readU64 buf offset).run = .ok (.ok v) ↔ v < 2 ^ 64 ∧ Holds buf offset (leBytes 8 v) := readLe_ok h

theorem readU128_ok {v : ℕ} (h : offset + 16 ≤ buf.length) :
    (readU128 buf offset).run = .ok (.ok v) ↔ v < 2 ^ 128 ∧ Holds buf offset (leBytes 16 v) := readLe_ok h

/-- The same for a byte. -/
theorem readU8_ok {b : UInt8} (h : offset < buf.length) :
    (readU8 buf offset).run = .ok (.ok b) ↔ Holds buf offset [b] := by
  have hdrop : buf.drop offset = buf[offset] :: buf.drop (offset + 1) := List.drop_eq_getElem_cons h
  unfold readU8 Holds
  rw [List.getElem?_eq_getElem h, hdrop]
  simp only [run_pure_ok, List.length_singleton, List.take_succ_cons, List.take_zero, List.cons.injEq, and_true]
  exact eq_comm

/-- An enumeration whose values all have a byte of their own. -/
structure Enumerates {α : Type} (values : List α) : Prop where
  all : ∀ a, a ∈ values
  nodup : values.Nodup
  fits : values.length ≤ 256

/-- A byte is read as a value just if it is that value's byte. -/
theorem enumFromU8_ok {α : Type} [DecidableEq α] {values : List α} (he : Enumerates values) {b : UInt8} {a : α} :
    (enumFromU8 values b).run = .ok (.ok a) ↔ b = enumToU8 values a := by
  have hidx : values.idxOf a < values.length := List.idxOf_lt_length_of_mem (he.all a)
  have hfits := he.fits
  have hnat : (enumToU8 values a).toNat = values.idxOf a := by
    unfold enumToU8
    rw [UInt8.toNat_ofNat']
    omega
  unfold enumFromU8
  constructor
  · intro h
    cases hb : values[b.toNat]? with
    | none =>
      rw [hb] at h
      cases h
    | some a' =>
      rw [hb] at h
      cases h
      obtain ⟨hlt, rfl⟩ := List.getElem?_eq_some_iff.1 hb
      apply UInt8.toNat.inj
      rw [hnat, he.nodup.idxOf_getElem]
  · rintro rfl
    rw [hnat, List.getElem?_idxOf (he.all a)]
    rfl

/-- In particular for each enumeration. -/
theorem sideFromU8_ok {b : UInt8} {a : Side} : (sideFromU8 b).run = .ok (.ok a) ↔ b = sideToU8 a :=
  enumFromU8_ok ⟨by intro a; cases a <;> decide, by decide, by decide⟩

theorem orderKindFromU8_ok {b : UInt8} {a : OrderKind} : (orderKindFromU8 b).run = .ok (.ok a) ↔ b = orderKindToU8 a :=
  enumFromU8_ok ⟨by intro a; cases a <;> decide, by decide, by decide⟩

theorem tifFromU8_ok {b : UInt8} {a : Tif} : (tifFromU8 b).run = .ok (.ok a) ↔ b = tifToU8 a :=
  enumFromU8_ok ⟨by intro a; cases a <;> decide, by decide, by decide⟩

theorem fillStateFromU8_ok {b : UInt8} {a : FillState} : (fillStateFromU8 b).run = .ok (.ok a) ↔ b = fillStateToU8 a :=
  enumFromU8_ok ⟨by intro a; cases a <;> decide, by decide, by decide⟩

theorem rejectReasonFromU8_ok {b : UInt8} {a : RejectReason} :
    (rejectReasonFromU8 b).run = .ok (.ok a) ↔ b = rejectReasonToU8 a :=
  enumFromU8_ok ⟨by intro a; cases a <;> decide, by decide, by decide⟩

/-- And for a switch. -/
theorem readBool_ok (h : offset < buf.length) {a : Bool} :
    (readBool buf offset).run = .ok (.ok a) ↔ Holds buf offset [if a then 1 else 0] := by
  have hbyte : (if a then 1 else 0 : UInt8) = enumToU8 [false, true] a := by cases a <;> rfl
  unfold readBool
  simp only [run_bind_ok, readU8_ok h, enumFromU8_ok (show Enumerates [false, true] from
    ⟨by intro a; cases a <;> decide, by decide, by decide⟩), exists_eq_right, hbyte]

/-- The tag of a frame implies the frame's length. -/
theorem frameTag_returns (frame : List UInt8) :
    Returns (frameTag frame) (fun tag => frame.head? = some tag ∧ messageLen tag = some frame.length) := by
  unfold frameTag
  split
  · exact .throw _
  · next tag hhead =>
    split
    · exact .throw _
    · next n hlen =>
      refine .ite (fun _ => .throw _) fun hn => .pure ⟨hhead, ?_⟩
      rw [hlen, not_not.1 hn]

/-- A frame that is as long as its tag says passes. -/
theorem frameTag_eq {frame : List UInt8} {tag : UInt8} (hhead : frame.head? = some tag)
    (hlen : messageLen tag = some frame.length) : frameTag frame = pure tag := by
  simp [frameTag, hhead, hlen]

/-- Exactly the frames as long as their tags say pass. -/
theorem frameTag_ok {frame : List UInt8} {tag : UInt8} :
    (frameTag frame).run = .ok (.ok tag) ↔ frame.head? = some tag ∧ messageLen tag = some frame.length := by
  constructor
  · intro h
    obtain ⟨r, hr, htag⟩ := frameTag_returns frame
    rw [h] at hr
    exact htag tag (Except.ok.inj hr).symm
  · rintro ⟨hhead, hlen⟩
    rw [frameTag_eq hhead hlen]
    rfl

end Reads

section Writes

/-- **Writing a record**: contiguous fields end up one behind the other at the front of the buffer. -/
theorem writeFields_ok {fields : List (ℕ × List UInt8)} {buf pre : List UInt8} (hfill : Filled buf pre)
    (hc : Contiguous pre.length fields) (hlen : pre.length + (fieldBytes fields).length ≤ buf.length) :
    ∃ buf', writeFields buf fields = .ok buf' ∧ Filled buf' (pre ++ fieldBytes fields) := by
  induction fields generalizing buf pre with
  | nil => exact ⟨buf, rfl, by simpa [fieldBytes] using hfill⟩
  | cons field fields ih =>
    obtain ⟨o, bytes⟩ := field
    obtain ⟨rfl, hc⟩ := hc
    rw [fieldBytes_cons, List.length_append] at hlen
    have hroom : pre.length + bytes.length ≤ buf.length := by omega
    rw [← List.length_append] at hc
    obtain ⟨buf', hbuf', hfill'⟩ := ih (hfill.write bytes) hc (by
      rw [splice_length hroom, List.length_append]
      omega)
    refine ⟨buf', ?_, ?_⟩
    · show (writeBytes buf pre.length bytes >>= fun buf => writeFields buf fields) = .ok buf'
      unfold writeBytes
      rw [if_pos hroom]
      exact hbuf'
    · rwa [fieldBytes_cons, ← List.append_assoc]

/-- `encode` writes `bytes` at the front of any buffer large enough, whatever it held. -/
def Encodes (encode : List UInt8 → Except Panic (List UInt8 × ℕ)) (bytes : List UInt8) : Prop :=
  ∀ buf, maxMessageLen ≤ buf.length → ∃ buf', encode buf = .ok (buf', bytes.length) ∧ buf'.take bytes.length = bytes

/-- What an encoder writes is determined. -/
theorem Encodes.unique {encode : List UInt8 → Except Panic (List UInt8 × ℕ)} {bytes bytes' : List UInt8}
    (h : Encodes encode bytes) (h' : Encodes encode bytes') : bytes = bytes' := by
  obtain ⟨buf, hbuf, hbytes⟩ := h (List.replicate maxMessageLen 0) (by simp)
  obtain ⟨buf', hbuf', hbytes'⟩ := h' (List.replicate maxMessageLen 0) (by simp)
  rw [hbuf, Except.ok.injEq, Prod.mk.injEq] at hbuf'
  rw [← hbytes, ← hbytes', hbuf'.1, hbuf'.2]

/-- The arms of both encoders: the writes, and the length returned. -/
def encodeFields (layout : List (ℕ × List UInt8) × ℕ) (buf : List UInt8) : Except Panic (List UInt8 × ℕ) := do
  let buf ← writeFields buf layout.1
  pure (buf, layout.2)

/-- **What an arm of an encoder writes.** -/
theorem encodeFields_encodes {layout : List (ℕ × List UInt8) × ℕ} {tag : UInt8} (hc : Contiguous 0 layout.1)
    (hlen : (fieldBytes layout.1).length = layout.2) (htag : messageLen tag = some layout.2) :
    Encodes (encodeFields layout) (fieldBytes layout.1) := by
  intro buf hbuf
  have hmax := messageLen_le htag
  obtain ⟨buf', hw, hfill⟩ := writeFields_ok (show Filled buf [] from rfl) hc
    (by rw [List.length_nil, Nat.zero_add, hlen]; omega)
  refine ⟨buf', ?_, hfill⟩
  unfold encodeFields
  rw [hw, hlen]
  rfl

end Writes

end MatchingEngine
