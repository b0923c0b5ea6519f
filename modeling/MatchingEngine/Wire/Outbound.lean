import MatchingEngine.Wire.Inbound

/-!
# Outbound messages

`wire::outbound`: one frame to a stream number, an engine number on the five execution
reports, and an `Event`. The stream number is read before the tag is looked at, so a
frame of the other direction panics in one of two ways: a kill switch or a snapshot
request is too short to hold one, and any other tag reaches `unreachable!`.

* `decodeEvent_returns`: no panic on any other frame.
* `decodeEvent_inbound`: a panic on those.
-/

namespace MatchingEngine

/-- `Accepted`: stream_seq(8) engine_seq(8) account_id(8) order_id(8) resting_qty(8). -/
def decodeAccepted (frame : List UInt8) : Decode (Option ℕ × Event) := do
  let engineSeq ← readU64 frame 9
  let accountId ← readU64 frame 17
  let orderId ← readU64 frame 25
  let restingQty ← readU64 frame 33
  pure (some engineSeq, .accepted accountId orderId restingQty)

/-- `Rejected`: stream_seq(8) engine_seq(8) account_id(8) order_id(8) reason(1). -/
def decodeRejected (frame : List UInt8) : Decode (Option ℕ × Event) := do
  let engineSeq ← readU64 frame 9
  let accountId ← readU64 frame 17
  let orderId ← readU64 frame 25
  let reason ← readU8 frame 33 >>= rejectReasonFromU8
  pure (some engineSeq, .rejected accountId orderId reason)

/-- `Filled`: stream_seq(8) engine_seq(8) account_id(8) order_id(8) side(1) price(8) qty(8)
resting_qty(8) state(1). -/
def decodeFilled (frame : List UInt8) : Decode (Option ℕ × Event) := do
  let engineSeq ← readU64 frame 9
  let accountId ← readU64 frame 17
  let orderId ← readU64 frame 25
  let side ← readU8 frame 33 >>= sideFromU8
  let price ← readU64 frame 34
  let qty ← readU64 frame 42
  let restingQty ← readU64 frame 50
  let state ← readU8 frame 58 >>= fillStateFromU8
  pure (some engineSeq, .filled accountId orderId side price qty restingQty state)

/-- `Cancelled`: stream_seq(8) engine_seq(8) account_id(8) order_id(8). -/
def decodeCancelled (frame : List UInt8) : Decode (Option ℕ × Event) := do
  let engineSeq ← readU64 frame 9
  let accountId ← readU64 frame 17
  let orderId ← readU64 frame 25
  pure (some engineSeq, .cancelled accountId orderId)

/-- `Replaced`: stream_seq(8) engine_seq(8) account_id(8) order_id(8) new_qty(8) priority_retained(1). -/
def decodeReplaced (frame : List UInt8) : Decode (Option ℕ × Event) := do
  let engineSeq ← readU64 frame 9
  let accountId ← readU64 frame 17
  let orderId ← readU64 frame 25
  let newQty ← readU64 frame 33
  let priorityRetained ← readBool frame 41
  pure (some engineSeq, .replaced accountId orderId newQty priorityRetained)

/-- `Trade`: stream_seq(8) price(8) qty(8) taker_side(1). -/
def decodeTrade (frame : List UInt8) : Decode (Option ℕ × Event) := do
  let price ← readU64 frame 9
  let qty ← readU64 frame 17
  let takerSide ← readU8 frame 25 >>= sideFromU8
  pure (none, .trade price qty takerSide)

/-- present(1) price(8) qty(8); an absent side is not read. -/
def readTouch (frame : List UInt8) (offset : ℕ) : Decode TouchSide := do
  if ← readBool frame offset then
    let price ← readU64 frame (offset + 1)
    let qty ← readU64 frame (offset + 9)
    pure (some (price, qty))
  else pure none

/-- present(1) price(8). -/
def readLastTrade (frame : List UInt8) (offset : ℕ) : Decode (Option ℕ) := do
  if ← readBool frame offset then
    let price ← readU64 frame (offset + 1)
    pure (some price)
  else pure none

/-- `BookUpdate`: stream_seq(8) bid(17) ask(17). -/
def decodeBookUpdate (frame : List UInt8) : Decode (Option ℕ × Event) := do
  let bestBid ← readTouch frame 9
  let bestAsk ← readTouch frame 26
  pure (none, .bookUpdate bestBid bestAsk)

/-- `SnapshotLevel`: stream_seq(8) side(1) price(8) qty(8) order_count(8). -/
def decodeSnapshotLevel (frame : List UInt8) : Decode (Option ℕ × Event) := do
  let side ← readU8 frame 9 >>= sideFromU8
  let price ← readU64 frame 10
  let qty ← readU64 frame 18
  let orderCount ← readU64 frame 26
  pure (none, .snapshotLevel side price qty orderCount)

/-- `SnapshotAccount`: stream_seq(8) account_id(8) open_order_count(8) notional(16, u128). -/
def decodeSnapshotAccount (frame : List UInt8) : Decode (Option ℕ × Event) := do
  let accountId ← readU64 frame 9
  let openOrderCount ← readU64 frame 17
  let notional ← readU128 frame 25
  pure (none, .snapshotAccount accountId openOrderCount notional)

/-- `SnapshotSummary`: stream_seq(8) bid(17) ask(17) last_trade_present(1) last_trade_price(8)
level_count(8) account_count(8). -/
def decodeSnapshotSummary (frame : List UInt8) : Decode (Option ℕ × Event) := do
  let bestBid ← readTouch frame 9
  let bestAsk ← readTouch frame 26
  let lastTrade ← readLastTrade frame 43
  let levelCount ← readU64 frame 52
  let accountCount ← readU64 frame 60
  pure (none, .snapshotSummary bestBid bestAsk lastTrade levelCount accountCount)

/-- The arms of `decode_event`. -/
def decodeBody (tag : UInt8) (frame : List UInt8) : Decode (Option ℕ × Event) :=
  match tag with
  | tagAccepted => decodeAccepted frame
  | tagRejected => decodeRejected frame
  | tagFilled => decodeFilled frame
  | tagCancelled => decodeCancelled frame
  | tagReplaced => decodeReplaced frame
  | tagTrade => decodeTrade frame
  | tagBookUpdate => decodeBookUpdate frame
  | tagSnapshotLevel => decodeSnapshotLevel frame
  | tagSnapshotAccount => decodeSnapshotAccount frame
  | tagSnapshotSummary => decodeSnapshotSummary frame
  | _ => .abort tagHandled

/-- `decode_event`: stream number, engine number if the event carries one, event. -/
def decodeEvent (frame : List UInt8) : Decode (ℕ × Option ℕ × Event) := do
  let tag ← frameTag frame
  let seq ← readU64 frame 1
  let (engineSeq, event) ← decodeBody tag frame
  pure (seq, engineSeq, event)

/-- The writes of each arm of `encode_event`, and the length it returns. A report without an engine
number is a fault of the caller. -/
def eventLayout (seq : ℕ) (engineSeq : Option ℕ) : Event → Except Panic (List (ℕ × List UInt8) × ℕ)
  | .accepted accountId orderId restingQty => do
    let engineSeq ← expect "Accepted is an execution report; engine_seq is always Some" engineSeq
    pure ([writeU8 0 tagAccepted, writeU64 1 seq, writeU64 9 engineSeq, writeU64 17 accountId, writeU64 25 orderId,
      writeU64 33 restingQty], acceptedLen)
  | .rejected accountId orderId reason => do
    let engineSeq ← expect ("Rejected always carries an EngineSeq -- either a real value from " ++
      "risk::process_command, or the EngineSeq(0) sentinel for a wire-level reject that never became a Command " ++
      "(SPEC §2)") engineSeq
    pure ([writeU8 0 tagRejected, writeU64 1 seq, writeU64 9 engineSeq, writeU64 17 accountId, writeU64 25 orderId,
      writeU8 33 (rejectReasonToU8 reason)], rejectedLen)
  | .filled accountId orderId side price qty restingQty state => do
    let engineSeq ← expect "Filled is an execution report; engine_seq is always Some" engineSeq
    pure ([writeU8 0 tagFilled, writeU64 1 seq, writeU64 9 engineSeq, writeU64 17 accountId, writeU64 25 orderId,
      writeU8 33 (sideToU8 side), writeU64 34 price, writeU64 42 qty, writeU64 50 restingQty,
      writeU8 58 (fillStateToU8 state)], filledLen)
  | .cancelled accountId orderId => do
    let engineSeq ← expect "Cancelled is an execution report; engine_seq is always Some" engineSeq
    pure ([writeU8 0 tagCancelled, writeU64 1 seq, writeU64 9 engineSeq, writeU64 17 accountId,
      writeU64 25 orderId], cancelledLen)
  | .replaced accountId orderId newQty priorityRetained => do
    let engineSeq ← expect "Replaced is an execution report; engine_seq is always Some" engineSeq
    pure ([writeU8 0 tagReplaced, writeU64 1 seq, writeU64 9 engineSeq, writeU64 17 accountId, writeU64 25 orderId,
      writeU64 33 newQty, writeBool 41 priorityRetained], replacedLen)
  | .trade price qty takerSide =>
    pure ([writeU8 0 tagTrade, writeU64 1 seq, writeU64 9 price, writeU64 17 qty, writeU8 25 (sideToU8 takerSide)],
      tradeLen)
  | .bookUpdate bestBid bestAsk =>
    let bid := bestBid.getD (0, 0)
    let ask := bestAsk.getD (0, 0)
    pure ([writeU8 0 tagBookUpdate, writeU64 1 seq, writeBool 9 bestBid.isSome, writeU64 10 bid.1, writeU64 18 bid.2,
      writeBool 26 bestAsk.isSome, writeU64 27 ask.1, writeU64 35 ask.2], bookUpdateLen)
  | .snapshotLevel side price qty orderCount =>
    pure ([writeU8 0 tagSnapshotLevel, writeU64 1 seq, writeU8 9 (sideToU8 side), writeU64 10 price, writeU64 18 qty,
      writeU64 26 orderCount], snapshotLevelLen)
  | .snapshotAccount accountId openOrderCount notional =>
    pure ([writeU8 0 tagSnapshotAccount, writeU64 1 seq, writeU64 9 accountId, writeU64 17 openOrderCount,
      writeU128 25 notional], snapshotAccountLen)
  | .snapshotSummary bestBid bestAsk lastTrade levelCount accountCount =>
    let bid := bestBid.getD (0, 0)
    let ask := bestAsk.getD (0, 0)
    pure ([writeU8 0 tagSnapshotSummary, writeU64 1 seq, writeBool 9 bestBid.isSome, writeU64 10 bid.1,
      writeU64 18 bid.2, writeBool 26 bestAsk.isSome, writeU64 27 ask.1, writeU64 35 ask.2,
      writeBool 43 lastTrade.isSome, writeU64 44 (lastTrade.getD 0), writeU64 52 levelCount, writeU64 60 accountCount],
      snapshotSummaryLen)

/-- `encode_event`: it panics on a report without an engine number. -/
def encodeEvent (seq : ℕ) (engineSeq : Option ℕ) (event : Event) (buf : List UInt8) :
    Except Panic (List UInt8 × ℕ) := do
  encodeFields (← eventLayout seq engineSeq event) buf

section Decode

variable {frame : List UInt8}

/-- One side of the touch is read without a panic. -/
theorem readTouch_returns {offset : ℕ} (h : offset + 17 ≤ frame.length) :
    Returns (readTouch frame offset) (fun _ => True) := by
  unfold readTouch
  refine (readEnum_returns _ (by omega)).bind fun present _ => .ite (fun _ => ?_) (fun _ => .pure trivial)
  refine (readU64_returns (by omega)).bind fun price _ => ?_
  refine (readU64_returns (by omega)).bind fun qty _ => ?_
  exact .pure trivial

/-- So is the last trade. -/
theorem readLastTrade_returns {offset : ℕ} (h : offset + 9 ≤ frame.length) :
    Returns (readLastTrade frame offset) (fun _ => True) := by
  unfold readLastTrade
  refine (readEnum_returns _ (by omega)).bind fun present _ => .ite (fun _ => ?_) (fun _ => .pure trivial)
  refine (readU64_returns (by omega)).bind fun price _ => ?_
  exact .pure trivial

/-- A frame of the right length is decoded without a panic; and so for the other events. -/
theorem decodeAccepted_returns (h : frame.length = acceptedLen) : Returns (decodeAccepted frame) (fun _ => True) := by
  unfold acceptedLen at h
  refine (readU64_returns (by omega)).bind fun engineSeq _ => ?_
  refine (readU64_returns (by omega)).bind fun accountId _ => ?_
  refine (readU64_returns (by omega)).bind fun orderId _ => ?_
  refine (readU64_returns (by omega)).bind fun restingQty _ => ?_
  exact .pure trivial

theorem decodeRejected_returns (h : frame.length = rejectedLen) : Returns (decodeRejected frame) (fun _ => True) := by
  unfold rejectedLen at h
  refine (readU64_returns (by omega)).bind fun engineSeq _ => ?_
  refine (readU64_returns (by omega)).bind fun accountId _ => ?_
  refine (readU64_returns (by omega)).bind fun orderId _ => ?_
  refine (readEnum_returns _ (by omega)).bind fun reason _ => ?_
  exact .pure trivial

theorem decodeFilled_returns (h : frame.length = filledLen) : Returns (decodeFilled frame) (fun _ => True) := by
  unfold filledLen at h
  refine (readU64_returns (by omega)).bind fun engineSeq _ => ?_
  refine (readU64_returns (by omega)).bind fun accountId _ => ?_
  refine (readU64_returns (by omega)).bind fun orderId _ => ?_
  refine (readEnum_returns _ (by omega)).bind fun side _ => ?_
  refine (readU64_returns (by omega)).bind fun price _ => ?_
  refine (readU64_returns (by omega)).bind fun qty _ => ?_
  refine (readU64_returns (by omega)).bind fun restingQty _ => ?_
  refine (readEnum_returns _ (by omega)).bind fun state _ => ?_
  exact .pure trivial

theorem decodeCancelled_returns (h : frame.length = cancelledLen) : Returns (decodeCancelled frame) (fun _ => True) := by
  unfold cancelledLen at h
  refine (readU64_returns (by omega)).bind fun engineSeq _ => ?_
  refine (readU64_returns (by omega)).bind fun accountId _ => ?_
  refine (readU64_returns (by omega)).bind fun orderId _ => ?_
  exact .pure trivial

theorem decodeReplaced_returns (h : frame.length = replacedLen) : Returns (decodeReplaced frame) (fun _ => True) := by
  unfold replacedLen at h
  refine (readU64_returns (by omega)).bind fun engineSeq _ => ?_
  refine (readU64_returns (by omega)).bind fun accountId _ => ?_
  refine (readU64_returns (by omega)).bind fun orderId _ => ?_
  refine (readU64_returns (by omega)).bind fun newQty _ => ?_
  refine (readEnum_returns _ (by omega)).bind fun priorityRetained _ => ?_
  exact .pure trivial

theorem decodeTrade_returns (h : frame.length = tradeLen) : Returns (decodeTrade frame) (fun _ => True) := by
  unfold tradeLen at h
  refine (readU64_returns (by omega)).bind fun price _ => ?_
  refine (readU64_returns (by omega)).bind fun qty _ => ?_
  refine (readEnum_returns _ (by omega)).bind fun takerSide _ => ?_
  exact .pure trivial

theorem decodeBookUpdate_returns (h : frame.length = bookUpdateLen) : Returns (decodeBookUpdate frame) (fun _ => True) := by
  unfold bookUpdateLen at h
  refine (readTouch_returns (by omega)).bind fun bestBid _ => ?_
  refine (readTouch_returns (by omega)).bind fun bestAsk _ => ?_
  exact .pure trivial

theorem decodeSnapshotLevel_returns (h : frame.length = snapshotLevelLen) : Returns (decodeSnapshotLevel frame) (fun _ => True) := by
  unfold snapshotLevelLen at h
  refine (readEnum_returns _ (by omega)).bind fun side _ => ?_
  refine (readU64_returns (by omega)).bind fun price _ => ?_
  refine (readU64_returns (by omega)).bind fun qty _ => ?_
  refine (readU64_returns (by omega)).bind fun orderCount _ => ?_
  exact .pure trivial

theorem decodeSnapshotAccount_returns (h : frame.length = snapshotAccountLen) : Returns (decodeSnapshotAccount frame) (fun _ => True) := by
  unfold snapshotAccountLen at h
  refine (readU64_returns (by omega)).bind fun accountId _ => ?_
  refine (readU64_returns (by omega)).bind fun openOrderCount _ => ?_
  refine (readU128_returns (by omega)).bind fun notional _ => ?_
  exact .pure trivial

theorem decodeSnapshotSummary_returns (h : frame.length = snapshotSummaryLen) : Returns (decodeSnapshotSummary frame) (fun _ => True) := by
  unfold snapshotSummaryLen at h
  refine (readTouch_returns (by omega)).bind fun bestBid _ => ?_
  refine (readTouch_returns (by omega)).bind fun bestAsk _ => ?_
  refine (readLastTrade_returns (by omega)).bind fun lastTrade _ => ?_
  refine (readU64_returns (by omega)).bind fun levelCount _ => ?_
  refine (readU64_returns (by omega)).bind fun accountCount _ => ?_
  exact .pure trivial

/-- Every arm stays inside a frame of its own length. -/
theorem decodeBody_returns {tag : UInt8} (hout : tag ∈ outboundTags) (hlen : messageLen tag = some frame.length) :
    Returns (decodeBody tag frame) (fun _ => True) := by
  simp only [outboundTags, List.mem_cons, List.not_mem_nil, or_false] at hout
  rcases hout with rfl | rfl | rfl | rfl | rfl | rfl | rfl | rfl | rfl | rfl
  · exact decodeAccepted_returns (Option.some.inj hlen).symm
  · exact decodeRejected_returns (Option.some.inj hlen).symm
  · exact decodeFilled_returns (Option.some.inj hlen).symm
  · exact decodeCancelled_returns (Option.some.inj hlen).symm
  · exact decodeReplaced_returns (Option.some.inj hlen).symm
  · exact decodeTrade_returns (Option.some.inj hlen).symm
  · exact decodeBookUpdate_returns (Option.some.inj hlen).symm
  · exact decodeSnapshotLevel_returns (Option.some.inj hlen).symm
  · exact decodeSnapshotAccount_returns (Option.some.inj hlen).symm
  · exact decodeSnapshotSummary_returns (Option.some.inj hlen).symm

/-- **Decoding a frame that is not inbound** returns. -/
theorem decodeEvent_returns (h : ¬ Tagged inboundTags frame) : Returns (decodeEvent frame) (fun _ => True) := by
  unfold decodeEvent
  refine (frameTag_returns frame).bind fun tag ⟨hhead, hlen⟩ => ?_
  rcases messageLen_isSome hlen with hin | hout
  · exact absurd ⟨tag, hin, hhead, hlen⟩ h
  · have hseq : 1 + 8 ≤ frame.length := by
      simp only [outboundTags, List.mem_cons, List.not_mem_nil, or_false] at hout
      rcases hout with rfl | rfl | rfl | rfl | rfl | rfl | rfl | rfl | rfl | rfl
      all_goals
        rw [← Option.some.inj hlen]
        decide
    refine (readU64_returns hseq).bind fun seq _ => ?_
    refine (decodeBody_returns hout hlen).bind fun body _ => ?_
    exact .pure trivial

/-- **Decoding an inbound frame panics**, at the stream number or at the tag. -/
theorem decodeEvent_inbound (h : Tagged inboundTags frame) : ∃ p, decodeEvent frame = .abort p := by
  obtain ⟨tag, hin, hhead, hlen⟩ := h
  unfold decodeEvent
  rw [frameTag_eq hhead hlen, pure_bind]
  by_cases hseq : 1 + 8 ≤ frame.length
  · have hread : readU64 frame 1 = pure (leValue ((frame.drop 1).take 8)) := if_pos hseq
    rw [hread, pure_bind]
    refine ⟨tagHandled, ?_⟩
    simp only [inboundTags, List.mem_cons, List.not_mem_nil, or_false] at hin
    rcases hin with rfl | rfl | rfl | rfl | rfl | rfl <;> rfl
  · have hread : readU64 frame 1 = .abort .indexOutOfRange := readLe_abort (by omega)
    rw [hread]
    exact ⟨.indexOutOfRange, rfl⟩

/-- **The frames on which `decode_event` returns.** -/
theorem decodeEvent_ok_iff : (∃ r, (decodeEvent frame).run = .ok r) ↔ ¬ Tagged inboundTags frame := by
  constructor
  · rintro ⟨r, hr⟩ hin
    obtain ⟨p, hp⟩ := decodeEvent_inbound hin
    rw [hp] at hr
    cases hr
  · intro hout
    obtain ⟨r, hr, -⟩ := decodeEvent_returns hout
    exact ⟨r, hr⟩

end Decode

end MatchingEngine
