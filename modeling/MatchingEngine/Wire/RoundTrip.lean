import MatchingEngine.Wire.Outbound
import MatchingEngine.Wire.Framer

/-!
# Outbound messages round-trip

Every event, stamped, is read back from the bytes written for it: one lemma for each
arm of the two match statements, from what the fields hold. An absent book side and an
absent last trade are written as a zero presence byte with zero filler, and the filler
is not read.

* `Event.encodes`, `Event.roundTrips`: all ten kinds.
* `drainFrames_whole`: the framer splits a concatenation of whole frames into them.
-/

namespace MatchingEngine

namespace Event

/-- The five kinds that carry an engine number. -/
def isReport : Event → Bool
  | .accepted .. => true
  | .rejected .. => true
  | .filled .. => true
  | .cancelled .. => true
  | .replaced .. => true
  | _ => false

/-- A side of the top of book, absent or two `u64`. -/
def TouchTyped (t : TouchSide) : Prop := ∀ x, t = some x → x.1 < 2 ^ 64 ∧ x.2 < 2 ^ 64

/-- Every field in the range of its type: `u64`, and `u128` for a notional. -/
def Typed : Event → Prop
  | .accepted a o q => a < 2 ^ 64 ∧ o < 2 ^ 64 ∧ q < 2 ^ 64
  | .rejected a o _ => a < 2 ^ 64 ∧ o < 2 ^ 64
  | .filled a o _ p q v _ => a < 2 ^ 64 ∧ o < 2 ^ 64 ∧ p < 2 ^ 64 ∧ q < 2 ^ 64 ∧ v < 2 ^ 64
  | .cancelled a o => a < 2 ^ 64 ∧ o < 2 ^ 64
  | .replaced a o q _ => a < 2 ^ 64 ∧ o < 2 ^ 64 ∧ q < 2 ^ 64
  | .trade p q _ => p < 2 ^ 64 ∧ q < 2 ^ 64
  | .bookUpdate bid ask => TouchTyped bid ∧ TouchTyped ask
  | .snapshotLevel _ p q n => p < 2 ^ 64 ∧ q < 2 ^ 64 ∧ n < 2 ^ 64
  | .snapshotAccount a n v => a < 2 ^ 64 ∧ n < 2 ^ 64 ∧ v < 2 ^ 128
  | .snapshotSummary bid ask last l n =>
    TouchTyped bid ∧ TouchTyped ask ∧ (∀ p, last = some p → p < 2 ^ 64) ∧ l < 2 ^ 64 ∧ n < 2 ^ 64

/-- What is written for the event, whatever the buffer held, is as long as its tag says and is read back. -/
def RoundTrips (seq engineSeq : ℕ) (ev : Event) (bytes : List UInt8) : Prop :=
  Encodes (encodeEvent seq (some engineSeq) ev) bytes ∧
  (∃ tag, bytes.head? = some tag ∧ messageLen tag = some bytes.length) ∧
  (decodeEvent bytes).run = .ok (.ok (seq, if ev.isReport then some engineSeq else none, ev))

section Arms

variable {frame : List UInt8} {seq engineSeq : ℕ} {ev : Event}

/-- What an arm writes, if its fields are contiguous. -/
theorem encodes_intro {layout : List (ℕ × List UInt8) × ℕ} (tag : UInt8)
    (hlayout : eventLayout seq (some engineSeq) ev = .ok layout) (hc : Contiguous 0 layout.1)
    (hlen : (fieldBytes layout.1).length = layout.2) (htag : messageLen tag = some layout.2) :
    Encodes (encodeEvent seq (some engineSeq) ev) (fieldBytes layout.1) := by
  have henc : encodeEvent seq (some engineSeq) ev = encodeFields layout := by
    funext buf
    unfold encodeEvent
    rw [hlayout]
    rfl
  rw [henc]
  exact encodeFields_encodes hc hlen htag

/-- **Encoding with an engine number** never fails. -/
theorem encodes (seq engineSeq : ℕ) (ev : Event) : ∃ bytes, Encodes (encodeEvent seq (some engineSeq) ev) bytes := by
  cases ev with
  | accepted a o q => exact ⟨_, encodes_intro tagAccepted rfl (by simp [Contiguous, writeU8, writeU64]) rfl rfl⟩
  | rejected a o reason => exact ⟨_, encodes_intro tagRejected rfl (by simp [Contiguous, writeU8, writeU64]) rfl rfl⟩
  | filled a o s p q v st => exact ⟨_, encodes_intro tagFilled rfl (by simp [Contiguous, writeU8, writeU64]) rfl rfl⟩
  | cancelled a o => exact ⟨_, encodes_intro tagCancelled rfl (by simp [Contiguous, writeU8, writeU64]) rfl rfl⟩
  | replaced a o q kept =>
    exact ⟨_, encodes_intro tagReplaced rfl (by simp [Contiguous, writeU8, writeU64, writeBool]) rfl rfl⟩
  | trade p q s => exact ⟨_, encodes_intro tagTrade rfl (by simp [Contiguous, writeU8, writeU64]) rfl rfl⟩
  | bookUpdate bid ask =>
    exact ⟨_, encodes_intro tagBookUpdate rfl (by simp [Contiguous, writeU8, writeU64, writeBool]) rfl rfl⟩
  | snapshotLevel s p q n =>
    exact ⟨_, encodes_intro tagSnapshotLevel rfl (by simp [Contiguous, writeU8, writeU64]) rfl rfl⟩
  | snapshotAccount a n v =>
    exact ⟨_, encodes_intro tagSnapshotAccount rfl (by simp [Contiguous, writeU8, writeU64, writeU128]) rfl rfl⟩
  | snapshotSummary bid ask last l n =>
    exact ⟨_, encodes_intro tagSnapshotSummary rfl (by simp [Contiguous, writeU8, writeU64, writeBool]) rfl rfl⟩

/-- An arm round-trips if its fields are contiguous and read back by the arm of its tag. -/
theorem roundTrips_intro {layout : List (ℕ × List UInt8) × ℕ} (tag : UInt8)
    (hlayout : eventLayout seq (some engineSeq) ev = .ok layout) (hc : Contiguous 0 layout.1)
    (hlen : (fieldBytes layout.1).length = layout.2)
    (hhead : (fieldBytes layout.1).head? = some tag) (htag : messageLen tag = some layout.2)
    (hbody : ∀ frame, frame.length = layout.2 → (∀ field ∈ layout.1, Holds frame field.1 field.2) →
      (readU64 frame 1).run = .ok (.ok seq) ∧
      (decodeBody tag frame).run = .ok (.ok (if ev.isReport then some engineSeq else none, ev))) :
    ∃ bytes, RoundTrips seq engineSeq ev bytes := by
  refine ⟨fieldBytes layout.1, encodes_intro tag hlayout hc hlen htag,
    ⟨tag, hhead, htag.trans (congrArg some hlen.symm)⟩, ?_⟩
  · obtain ⟨hseq, hev⟩ := hbody _ hlen ((eq_fieldBytes_iff hc rfl).1 rfl)
    unfold decodeEvent
    simp only [run_bind_ok, run_pure_ok, frameTag_ok]
    exact ⟨tag, ⟨hhead, htag.trans (congrArg some hlen.symm)⟩, seq, hseq, _, hev, rfl⟩

/-- One side of the touch is read back, an empty side from zeros. -/
theorem readTouch_ok {offset : ℕ} {t : TouchSide} (h : offset + 17 ≤ frame.length) (ht : TouchTyped t)
    (hp : Holds frame offset [if t.isSome then 1 else 0])
    (h1 : Holds frame (offset + 1) (leBytes 8 (t.getD (0, 0)).1))
    (h2 : Holds frame (offset + 9) (leBytes 8 (t.getD (0, 0)).2)) : (readTouch frame offset).run = .ok (.ok t) := by
  unfold readTouch
  rw [run_bind_ok]
  refine ⟨t.isSome, (readBool_ok (by omega)).2 hp, ?_⟩
  cases t with
  | none => rfl
  | some x =>
    obtain ⟨hx1, hx2⟩ := ht x rfl
    simp only [Option.isSome_some, if_true]
    rw [run_bind_ok]
    refine ⟨x.1, (readU64_ok (by omega)).2 ⟨hx1, h1⟩, ?_⟩
    rw [run_bind_ok]
    exact ⟨x.2, (readU64_ok (by omega)).2 ⟨hx2, h2⟩, rfl⟩

/-- So is the last trade. -/
theorem readLastTrade_ok {offset : ℕ} {t : Option ℕ} (h : offset + 9 ≤ frame.length) (ht : ∀ p, t = some p → p < 2 ^ 64)
    (hp : Holds frame offset [if t.isSome then 1 else 0]) (h1 : Holds frame (offset + 1) (leBytes 8 (t.getD 0))) :
    (readLastTrade frame offset).run = .ok (.ok t) := by
  unfold readLastTrade
  rw [run_bind_ok]
  refine ⟨t.isSome, (readBool_ok (by omega)).2 hp, ?_⟩
  cases t with
  | none => rfl
  | some p =>
    simp only [Option.isSome_some, if_true]
    rw [run_bind_ok]
    exact ⟨p, (readU64_ok (by omega)).2 ⟨ht p rfl, h1⟩, rfl⟩

variable (hseq : seq < 2 ^ 64)
include hseq

/-- Market data and snapshot rows, which carry no engine number. -/
theorem trade_roundTrips {p q : ℕ} {s : Side} (hev : (Event.trade p q s).Typed) :
    ∃ bytes, RoundTrips seq engineSeq (.trade p q s) bytes := by
  refine roundTrips_intro tagTrade rfl ?_ rfl rfl rfl fun frame h hf => ?_
  · simp [Contiguous, writeU8, writeU64]
  simp only [tradeLen] at h
  simp only [List.forall_mem_cons, writeU8, writeU64] at hf
  obtain ⟨-, h1, h9, h17, h25, -⟩ := hf
  refine ⟨(readU64_ok (by omega)).2 ⟨hseq, h1⟩, ?_⟩
  show (decodeTrade frame).run = _
  unfold decodeTrade
  simp (disch := omega) only [run_bind_ok, run_pure_ok, readU64_ok, readU8_ok, sideFromU8_ok, exists_eq_right]
  exact ⟨p, ⟨hev.1, h9⟩, q, ⟨hev.2, h17⟩, s, h25, rfl⟩

theorem snapshotLevel_roundTrips {p q n : ℕ} {s : Side} (hev : (Event.snapshotLevel s p q n).Typed) :
    ∃ bytes, RoundTrips seq engineSeq (.snapshotLevel s p q n) bytes := by
  refine roundTrips_intro tagSnapshotLevel rfl ?_ rfl rfl rfl fun frame h hf => ?_
  · simp [Contiguous, writeU8, writeU64]
  simp only [snapshotLevelLen] at h
  simp only [List.forall_mem_cons, writeU8, writeU64] at hf
  obtain ⟨-, h1, h9, h10, h18, h26, -⟩ := hf
  refine ⟨(readU64_ok (by omega)).2 ⟨hseq, h1⟩, ?_⟩
  show (decodeSnapshotLevel frame).run = _
  unfold decodeSnapshotLevel
  simp (disch := omega) only [run_bind_ok, run_pure_ok, readU64_ok, readU8_ok, sideFromU8_ok, exists_eq_right]
  exact ⟨s, h9, p, ⟨hev.1, h10⟩, q, ⟨hev.2.1, h18⟩, n, ⟨hev.2.2, h26⟩, rfl⟩

theorem snapshotAccount_roundTrips {a n v : ℕ} (hev : (Event.snapshotAccount a n v).Typed) :
    ∃ bytes, RoundTrips seq engineSeq (.snapshotAccount a n v) bytes := by
  refine roundTrips_intro tagSnapshotAccount rfl ?_ rfl rfl rfl fun frame h hf => ?_
  · simp [Contiguous, writeU8, writeU64, writeU128]
  simp only [snapshotAccountLen] at h
  simp only [List.forall_mem_cons, writeU8, writeU64, writeU128] at hf
  obtain ⟨-, h1, h9, h17, h25, -⟩ := hf
  refine ⟨(readU64_ok (by omega)).2 ⟨hseq, h1⟩, ?_⟩
  show (decodeSnapshotAccount frame).run = _
  unfold decodeSnapshotAccount
  simp (disch := omega) only [run_bind_ok, run_pure_ok, readU64_ok, readU128_ok]
  exact ⟨a, ⟨hev.1, h9⟩, n, ⟨hev.2.1, h17⟩, v, ⟨hev.2.2, h25⟩, rfl⟩

theorem bookUpdate_roundTrips {bid ask : TouchSide} (hev : (Event.bookUpdate bid ask).Typed) :
    ∃ bytes, RoundTrips seq engineSeq (.bookUpdate bid ask) bytes := by
  refine roundTrips_intro tagBookUpdate rfl ?_ rfl rfl rfl fun frame h hf => ?_
  · simp [Contiguous, writeU8, writeU64, writeBool]
  simp only [bookUpdateLen] at h
  simp only [List.forall_mem_cons, writeU8, writeU64, writeBool] at hf
  obtain ⟨-, h1, h9, h10, h18, h26, h27, h35, -⟩ := hf
  refine ⟨(readU64_ok (by omega)).2 ⟨hseq, h1⟩, ?_⟩
  show (decodeBookUpdate frame).run = _
  unfold decodeBookUpdate
  simp only [run_bind_ok, run_pure_ok]
  exact ⟨bid, readTouch_ok (by omega) hev.1 h9 h10 h18, ask, readTouch_ok (by omega) hev.2 h26 h27 h35, rfl⟩

theorem snapshotSummary_roundTrips {bid ask : TouchSide} {last : Option ℕ} {l n : ℕ}
    (hev : (Event.snapshotSummary bid ask last l n).Typed) :
    ∃ bytes, RoundTrips seq engineSeq (.snapshotSummary bid ask last l n) bytes := by
  refine roundTrips_intro tagSnapshotSummary rfl ?_ rfl rfl rfl fun frame h hf => ?_
  · simp [Contiguous, writeU8, writeU64, writeBool]
  simp only [snapshotSummaryLen] at h
  simp only [List.forall_mem_cons, writeU8, writeU64, writeBool] at hf
  obtain ⟨-, h1, h9, h10, h18, h26, h27, h35, h43, h44, h52, h60, -⟩ := hf
  refine ⟨(readU64_ok (by omega)).2 ⟨hseq, h1⟩, ?_⟩
  show (decodeSnapshotSummary frame).run = _
  unfold decodeSnapshotSummary
  simp only [run_bind_ok, run_pure_ok]
  exact ⟨bid, readTouch_ok (by omega) hev.1 h9 h10 h18, ask, readTouch_ok (by omega) hev.2.1 h26 h27 h35,
    last, readLastTrade_ok (by omega) hev.2.2.1 h43 h44, l, (readU64_ok (by omega)).2 ⟨hev.2.2.2.1, h52⟩,
    n, (readU64_ok (by omega)).2 ⟨hev.2.2.2.2, h60⟩, rfl⟩

-- the reports carry an engine number too
variable (heng : engineSeq < 2 ^ 64)
include heng

/-- Reports, which do. -/
theorem accepted_roundTrips {a o q : ℕ} (hev : (Event.accepted a o q).Typed) :
    ∃ bytes, RoundTrips seq engineSeq (.accepted a o q) bytes := by
  refine roundTrips_intro tagAccepted rfl ?_ rfl rfl rfl fun frame h hf => ?_
  · simp [Contiguous, writeU8, writeU64]
  simp only [acceptedLen] at h
  simp only [List.forall_mem_cons, writeU8, writeU64] at hf
  obtain ⟨-, h1, h9, h17, h25, h33, -⟩ := hf
  refine ⟨(readU64_ok (by omega)).2 ⟨hseq, h1⟩, ?_⟩
  show (decodeAccepted frame).run = _
  unfold decodeAccepted
  simp (disch := omega) only [run_bind_ok, run_pure_ok, readU64_ok]
  exact ⟨engineSeq, ⟨heng, h9⟩, a, ⟨hev.1, h17⟩, o, ⟨hev.2.1, h25⟩, q, ⟨hev.2.2, h33⟩, rfl⟩

theorem rejected_roundTrips {a o : ℕ} {reason : RejectReason} (hev : (Event.rejected a o reason).Typed) :
    ∃ bytes, RoundTrips seq engineSeq (.rejected a o reason) bytes := by
  refine roundTrips_intro tagRejected rfl ?_ rfl rfl rfl fun frame h hf => ?_
  · simp [Contiguous, writeU8, writeU64]
  simp only [rejectedLen] at h
  simp only [List.forall_mem_cons, writeU8, writeU64] at hf
  obtain ⟨-, h1, h9, h17, h25, h33, -⟩ := hf
  refine ⟨(readU64_ok (by omega)).2 ⟨hseq, h1⟩, ?_⟩
  show (decodeRejected frame).run = _
  unfold decodeRejected
  simp (disch := omega) only [run_bind_ok, run_pure_ok, readU64_ok, readU8_ok, rejectReasonFromU8_ok, exists_eq_right]
  exact ⟨engineSeq, ⟨heng, h9⟩, a, ⟨hev.1, h17⟩, o, ⟨hev.2, h25⟩, reason, h33, rfl⟩

/-- The longest of them. -/
theorem filled_roundTrips {a o p q v : ℕ} {s : Side} {st : FillState} (hev : (Event.filled a o s p q v st).Typed) :
    ∃ bytes, RoundTrips seq engineSeq (.filled a o s p q v st) bytes := by
  refine roundTrips_intro tagFilled rfl ?_ rfl rfl rfl fun frame h hf => ?_
  · simp [Contiguous, writeU8, writeU64]
  simp only [filledLen] at h
  simp only [List.forall_mem_cons, writeU8, writeU64] at hf
  obtain ⟨-, h1, h9, h17, h25, h33, h34, h42, h50, h58, -⟩ := hf
  refine ⟨(readU64_ok (by omega)).2 ⟨hseq, h1⟩, ?_⟩
  show (decodeFilled frame).run = _
  unfold decodeFilled
  simp (disch := omega) only [run_bind_ok, run_pure_ok, readU64_ok, readU8_ok, sideFromU8_ok,
    fillStateFromU8_ok, exists_eq_right]
  exact ⟨engineSeq, ⟨heng, h9⟩, a, ⟨hev.1, h17⟩, o, ⟨hev.2.1, h25⟩, s, h33, p, ⟨hev.2.2.1, h34⟩, q,
    ⟨hev.2.2.2.1, h42⟩, v, ⟨hev.2.2.2.2, h50⟩, st, h58, rfl⟩

theorem cancelled_roundTrips {a o : ℕ} (hev : (Event.cancelled a o).Typed) :
    ∃ bytes, RoundTrips seq engineSeq (.cancelled a o) bytes := by
  refine roundTrips_intro tagCancelled rfl ?_ rfl rfl rfl fun frame h hf => ?_
  · simp [Contiguous, writeU8, writeU64]
  simp only [cancelledLen] at h
  simp only [List.forall_mem_cons, writeU8, writeU64] at hf
  obtain ⟨-, h1, h9, h17, h25, -⟩ := hf
  refine ⟨(readU64_ok (by omega)).2 ⟨hseq, h1⟩, ?_⟩
  show (decodeCancelled frame).run = _
  unfold decodeCancelled
  simp (disch := omega) only [run_bind_ok, run_pure_ok, readU64_ok]
  exact ⟨engineSeq, ⟨heng, h9⟩, a, ⟨hev.1, h17⟩, o, ⟨hev.2, h25⟩, rfl⟩

theorem replaced_roundTrips {a o q : ℕ} {kept : Bool} (hev : (Event.replaced a o q kept).Typed) :
    ∃ bytes, RoundTrips seq engineSeq (.replaced a o q kept) bytes := by
  refine roundTrips_intro tagReplaced rfl ?_ rfl rfl rfl fun frame h hf => ?_
  · simp [Contiguous, writeU8, writeU64, writeBool]
  simp only [replacedLen] at h
  simp only [List.forall_mem_cons, writeU8, writeU64, writeBool] at hf
  obtain ⟨-, h1, h9, h17, h25, h33, h41, -⟩ := hf
  refine ⟨(readU64_ok (by omega)).2 ⟨hseq, h1⟩, ?_⟩
  show (decodeReplaced frame).run = _
  unfold decodeReplaced
  simp (disch := omega) only [run_bind_ok, run_pure_ok, readU64_ok, readBool_ok]
  exact ⟨engineSeq, ⟨heng, h9⟩, a, ⟨hev.1, h17⟩, o, ⟨hev.2.1, h25⟩, q, ⟨hev.2.2, h33⟩, kept, h41, rfl⟩

/-- **Every event round-trips.** -/
theorem roundTrips (hev : ev.Typed) : ∃ bytes, RoundTrips seq engineSeq ev bytes := by
  cases ev with
  | accepted a o q => exact accepted_roundTrips hseq heng hev
  | rejected a o reason => exact rejected_roundTrips hseq heng hev
  | filled a o s p q v st => exact filled_roundTrips hseq heng hev
  | cancelled a o => exact cancelled_roundTrips hseq heng hev
  | replaced a o q kept => exact replaced_roundTrips hseq heng hev
  | trade p q s => exact trade_roundTrips hseq hev
  | bookUpdate bid ask => exact bookUpdate_roundTrips hseq hev
  | snapshotLevel s p q n => exact snapshotLevel_roundTrips hseq hev
  | snapshotAccount a n v => exact snapshotAccount_roundTrips hseq hev
  | snapshotSummary bid ask last l n => exact snapshotSummary_roundTrips hseq hev

end Arms

end Event

/-- **The framer splits a concatenation of whole frames into them** and keeps nothing back. -/
theorem Framer.drainFrames_whole {fs : List (List UInt8)} (h : ∀ f ∈ fs, IsFrame messageLen f) :
    (Framer.new.feed fs.flatten).drainFrames collect [] = .ok (⟨[]⟩, fs, .ok ()) := by
  have hcut : Cut messageLen (Framer.new.feed fs.flatten).buf fs [] :=
    ⟨h, .inl unfinished_nil, List.append_nil _⟩
  obtain ⟨gs, rest, result, hcut', hends, hdrain⟩ := (Framer.new.feed fs.flatten).drainFrames_collect []
  obtain ⟨rfl, rfl⟩ := hcut.unique hcut'
  cases result with
  | ok u => exact hdrain
  | error reason =>
    obtain ⟨-, t, ht, -⟩ := hends
    simp at ht

end MatchingEngine
