import MatchingEngine.Wire.Codec

/-!
# Inbound messages

`wire::inbound`: one frame to one `Command`, with the gateway's validation. The arms of
`decode_command` have a definition each. The last arm, `unreachable!`, is taken by a frame
that has passed the length check with a tag of the other direction.

* `decodeCommand_returns`: no panic on any other frame, and what is accepted is `Decodable`.
* `decodeCommand_outbound`: a panic on those.
* `decodeCommand_ok`: what is accepted as a command is what `encode_command` writes for it.
-/

namespace MatchingEngine

/-- `NewOrder`: order_id(8) account_id(8) side(1) price(8) qty(8) order_kind(1) tif(1) client_ts(8). -/
def decodeNewOrder (frame : List UInt8) : Decode Command := do
  let kind ← readU8 frame 34 >>= orderKindFromU8
  let price ← readU64 frame 18
  let qty ← readU64 frame 26
  if qty = 0 then throw .zeroQuantity
  -- market orders carry no price
  else if kind = .limit ∧ price = 0 then throw .zeroPrice
  else
    let orderId ← readU64 frame 1
    let accountId ← readU64 frame 9
    let side ← readU8 frame 17 >>= sideFromU8
    let tif ← readU8 frame 35 >>= tifFromU8
    let clientTs ← readU64 frame 36
    pure (.newOrder accountId orderId side price qty kind tif clientTs)

/-- `CancelOrder`: order_id(8) account_id(8). -/
def decodeCancelOrder (frame : List UInt8) : Decode Command := do
  let orderId ← readU64 frame 1
  let accountId ← readU64 frame 9
  pure (.cancelOrder accountId orderId)

/-- `CancelReplace`: order_id(8) account_id(8) new_price(8) new_qty(8). The price is taken as it is. -/
def decodeCancelReplace (frame : List UInt8) : Decode Command := do
  let newQty ← readU64 frame 25
  if newQty = 0 then throw .zeroQuantity
  else
    let orderId ← readU64 frame 1
    let accountId ← readU64 frame 9
    let newPrice ← readU64 frame 17
    pure (.cancelReplace accountId orderId newPrice newQty)

/-- `MassCancel`: account_id(8). -/
def decodeMassCancel (frame : List UInt8) : Decode Command := do
  let accountId ← readU64 frame 1
  pure (.massCancel accountId)

/-- `KillSwitch`: engaged(1). -/
def decodeKillSwitch (frame : List UInt8) : Decode Command := do
  let engaged ← readBool frame 1
  pure (.killSwitch engaged)

/-- The message of both decoders' last arm. -/
def tagHandled : Panic := .unreachable "message_len already rejected any tag not handled above"

/-- `decode_command`: the fields of the command that the tag names. -/
def decodeCommand (frame : List UInt8) : Decode Command := do
  match ← frameTag frame with
  | tagNewOrder => decodeNewOrder frame
  | tagCancelOrder => decodeCancelOrder frame
  | tagCancelReplace => decodeCancelReplace frame
  | tagMassCancel => decodeMassCancel frame
  | tagKillSwitch => decodeKillSwitch frame
  | tagSnapshot => pure .snapshot
  | _ => .abort tagHandled

/-- The writes of each arm of `encode_command`, and the length it returns. -/
def commandLayout : Command → List (ℕ × List UInt8) × ℕ
  | .newOrder accountId orderId side price qty kind tif clientTs =>
    ([writeU8 0 tagNewOrder, writeU64 1 orderId, writeU64 9 accountId, writeU8 17 (sideToU8 side), writeU64 18 price,
      writeU64 26 qty, writeU8 34 (orderKindToU8 kind), writeU8 35 (tifToU8 tif), writeU64 36 clientTs], newOrderLen)
  | .cancelOrder accountId orderId =>
    ([writeU8 0 tagCancelOrder, writeU64 1 orderId, writeU64 9 accountId], cancelOrderLen)
  | .cancelReplace accountId orderId newPrice newQty =>
    ([writeU8 0 tagCancelReplace, writeU64 1 orderId, writeU64 9 accountId, writeU64 17 newPrice, writeU64 25 newQty],
      cancelReplaceLen)
  | .massCancel accountId => ([writeU8 0 tagMassCancel, writeU64 1 accountId], massCancelLen)
  | .killSwitch engaged => ([writeU8 0 tagKillSwitch, writeBool 1 engaged], killSwitchLen)
  | .snapshot => ([writeU8 0 tagSnapshot], snapshotLen)

/-- `encode_command`: the bytes written, and how many. -/
def encodeCommand (cmd : Command) (buf : List UInt8) : Except Panic (List UInt8 × ℕ) :=
  encodeFields (commandLayout cmd) buf

section Decode

variable {frame : List UInt8}

/-- A frame of the right length gives a decodable command or a refusal; and so for the other
commands. -/
theorem decodeNewOrder_returns (h : frame.length = newOrderLen) :
    Returns (decodeNewOrder frame) Command.Decodable := by
  unfold newOrderLen at h
  refine (readEnum_returns _ (by omega)).bind fun kind _ => ?_
  refine (readU64_returns (by omega)).bind fun price hprice => ?_
  refine (readU64_returns (by omega)).bind fun qty hqty => ?_
  refine .ite (fun _ => .throw _) fun hq => ?_
  refine .ite (fun _ => .throw _) fun hp => ?_
  refine (readU64_returns (by omega)).bind fun orderId horder => ?_
  refine (readU64_returns (by omega)).bind fun accountId haccount => ?_
  refine (readEnum_returns _ (by omega)).bind fun side _ => ?_
  refine (readEnum_returns _ (by omega)).bind fun tif _ => ?_
  refine (readU64_returns (by omega)).bind fun clientTs hts => ?_
  exact .pure ⟨haccount, horder, hprice, hqty, hts, hq, fun hk h0 => hp ⟨hk, h0⟩⟩

theorem decodeCancelOrder_returns (h : frame.length = cancelOrderLen) :
    Returns (decodeCancelOrder frame) Command.Decodable := by
  unfold cancelOrderLen at h
  refine (readU64_returns (by omega)).bind fun orderId horder => ?_
  refine (readU64_returns (by omega)).bind fun accountId haccount => ?_
  exact .pure ⟨haccount, horder⟩

theorem decodeCancelReplace_returns (h : frame.length = cancelReplaceLen) :
    Returns (decodeCancelReplace frame) Command.Decodable := by
  unfold cancelReplaceLen at h
  refine (readU64_returns (by omega)).bind fun newQty hqty => ?_
  refine .ite (fun _ => .throw _) fun hq => ?_
  refine (readU64_returns (by omega)).bind fun orderId horder => ?_
  refine (readU64_returns (by omega)).bind fun accountId haccount => ?_
  refine (readU64_returns (by omega)).bind fun newPrice hprice => ?_
  exact .pure ⟨haccount, horder, hprice, hqty, hq⟩

theorem decodeMassCancel_returns (h : frame.length = massCancelLen) :
    Returns (decodeMassCancel frame) Command.Decodable := by
  unfold massCancelLen at h
  refine (readU64_returns (by omega)).bind fun accountId haccount => ?_
  exact .pure haccount

theorem decodeKillSwitch_returns (h : frame.length = killSwitchLen) :
    Returns (decodeKillSwitch frame) Command.Decodable := by
  unfold killSwitchLen at h
  refine (readEnum_returns _ (by omega)).bind fun engaged _ => ?_
  exact .pure trivial

/-- **Decoding a frame that is not outbound** returns, and what it accepts is decodable. -/
theorem decodeCommand_returns (h : ¬ Tagged outboundTags frame) : Returns (decodeCommand frame) Command.Decodable := by
  unfold decodeCommand
  refine (frameTag_returns frame).bind fun tag ⟨hhead, hlen⟩ => ?_
  rcases messageLen_isSome hlen with hin | hout
  · -- the six inbound tags, each with the length its arm reads
    simp only [inboundTags, List.mem_cons, List.not_mem_nil, or_false] at hin
    rcases hin with rfl | rfl | rfl | rfl | rfl | rfl
    · exact decodeNewOrder_returns (Option.some.inj hlen).symm
    · exact decodeCancelOrder_returns (Option.some.inj hlen).symm
    · exact decodeCancelReplace_returns (Option.some.inj hlen).symm
    · exact decodeMassCancel_returns (Option.some.inj hlen).symm
    · exact decodeKillSwitch_returns (Option.some.inj hlen).symm
    · exact .pure trivial
  · exact absurd ⟨tag, hout, hhead, hlen⟩ h

/-- **Decoding an outbound frame panics.** -/
theorem decodeCommand_outbound (h : Tagged outboundTags frame) : decodeCommand frame = .abort tagHandled := by
  obtain ⟨tag, hout, hhead, hlen⟩ := h
  unfold decodeCommand
  rw [frameTag_eq hhead hlen, pure_bind]
  simp only [outboundTags, List.mem_cons, List.not_mem_nil, or_false] at hout
  rcases hout with rfl | rfl | rfl | rfl | rfl | rfl | rfl | rfl | rfl | rfl <;> rfl

/-- **The frames on which `decode_command` returns.** -/
theorem decodeCommand_ok_iff : (∃ r, (decodeCommand frame).run = .ok r) ↔ ¬ Tagged outboundTags frame := by
  constructor
  · rintro ⟨r, hr⟩ hout
    rw [decodeCommand_outbound hout] at hr
    cases hr
  · intro hin
    obtain ⟨r, hr, -⟩ := decodeCommand_returns hin
    exact ⟨r, hr⟩

/-- **What `decode_command` returns is decodable.** -/
theorem decodeCommand_decodable {c : Command} (h : (decodeCommand frame).run = .ok (.ok c)) : c.Decodable := by
  obtain ⟨r, hr, hc⟩ := decodeCommand_returns (decodeCommand_ok_iff.1 ⟨_, h⟩)
  rw [h, Except.ok.injEq] at hr
  exact hc c hr.symm

/-- The commands accepted from a sequence of frames. -/
def accepted (frames : List (List UInt8)) : List Command :=
  frames.filterMap fun frame => match (decodeCommand frame).run with
    | .ok (.ok c) => some c
    | _ => none

/-- So are the commands of a connection's frames. -/
theorem accepted_decodable {frames : List (List UInt8)} : ∀ c ∈ accepted frames, c.Decodable := by
  intro c hc
  obtain ⟨frame, -, hf⟩ := List.mem_filterMap.1 hc
  split at hf
  · next c' hdecode =>
    rw [Option.some.injEq] at hf
    exact decodeCommand_decodable (hf ▸ hdecode)
  · cases hf

/-- What decoding the frames of a stream one by one gives. -/
def Decodes (fs : List (List UInt8)) (rs : List (Except RejectReason Command)) : Prop :=
  List.Forall₂ (fun f r => (decodeCommand f).run = .ok r) fs rs

/-- **The streams whose frames all decode.** -/
theorem decodes_iff {bytes rest : List UInt8} {fs : List (List UInt8)} (hcut : Cut messageLen bytes fs rest) :
    (∃ rs, Decodes fs rs) ↔ ¬ Carries messageLen (Tagged outboundTags) bytes := by
  unfold Decodes
  rw [forall₂_ok_iff, hcut.carries_iff]
  constructor
  · rintro h ⟨f, hf, hout⟩
    exact decodeCommand_ok_iff.1 (h f hf) hout
  · intro h f hf
    exact decodeCommand_ok_iff.2 fun hout => h ⟨f, hf, hout⟩

end Decode

section Format

/-- The bytes of a command. -/
def commandBytes (cmd : Command) : List UInt8 := fieldBytes (commandLayout cmd).1

/-- The fields lie one behind the other. -/
theorem commandLayout_contiguous (cmd : Command) : Contiguous 0 (commandLayout cmd).1 := by
  cases cmd <;> simp [commandLayout, Contiguous, writeU8, writeU64, writeBool]

/-- A command's bytes fill its message. -/
theorem commandBytes_length (cmd : Command) : (commandBytes cmd).length = (commandLayout cmd).2 := by
  cases cmd <;> rfl

/-- The tag of a command's bytes gives their length. -/
theorem commandBytes_tag (cmd : Command) :
    ∃ tag ∈ inboundTags, (commandBytes cmd).head? = some tag ∧ messageLen tag = some (commandBytes cmd).length := by
  cases cmd with
  | newOrder => exact ⟨tagNewOrder, by decide, rfl, rfl⟩
  | cancelOrder => exact ⟨tagCancelOrder, by decide, rfl, rfl⟩
  | cancelReplace => exact ⟨tagCancelReplace, by decide, rfl, rfl⟩
  | massCancel => exact ⟨tagMassCancel, by decide, rfl, rfl⟩
  | killSwitch => exact ⟨tagKillSwitch, by decide, rfl, rfl⟩
  | snapshot => exact ⟨tagSnapshot, by decide, rfl, rfl⟩

/-- **What `encode_command` writes** are the command's bytes. -/
theorem encodeCommand_encodes (cmd : Command) : Encodes (encodeCommand cmd) (commandBytes cmd) := by
  obtain ⟨tag, -, -, hlen⟩ := commandBytes_tag cmd
  rw [commandBytes_length] at hlen
  exact encodeFields_encodes (commandLayout_contiguous cmd) (commandBytes_length cmd) hlen

variable {frame : List UInt8} {cmd : Command}

/-- A frame is a command's bytes if it holds the fields. -/
theorem eq_commandBytes_iff (h : frame.length = (commandLayout cmd).2) :
    frame = commandBytes cmd ↔ ∀ field ∈ (commandLayout cmd).1, Holds frame field.1 field.2 :=
  eq_fieldBytes_iff (commandLayout_contiguous cmd) (h.trans (commandBytes_length cmd).symm)

/-- A frame of this tag and length gives a command just if it is that command's bytes; and so for
the others. -/
theorem decodeNewOrder_ok (h : frame.length = newOrderLen) (htag : Holds frame 0 [tagNewOrder]) :
    (decodeNewOrder frame).run = .ok (.ok cmd) ↔
      (∃ a o s p q k t ts, cmd = .newOrder a o s p q k t ts) ∧ cmd.Decodable ∧ frame = commandBytes cmd := by
  unfold decodeNewOrder
  simp only [newOrderLen] at h
  simp (disch := omega) only [run_bind_ok, run_guard_ok, run_pure_ok, readU64_ok, readU8_ok,
    orderKindFromU8_ok, sideFromU8_ok, tifFromU8_ok, exists_eq_right]
  constructor
  · rintro ⟨k, hk, p, ⟨hp, hp'⟩, q, ⟨hq, hq'⟩, hq0, hp0, o, ⟨ho, ho'⟩, a, ⟨ha, ha'⟩, s, hs, t, ht, ts, ⟨hts, hts'⟩, rfl⟩
    refine ⟨⟨a, o, s, p, q, k, t, ts, rfl⟩, ⟨ha, ho, hp, hq, hts, hq0, fun hk0 h0 => hp0 ⟨hk0, h0⟩⟩, ?_⟩
    rw [eq_commandBytes_iff h]
    simp only [commandLayout, List.forall_mem_cons, writeU8, writeU64]
    exact ⟨htag, ho', ha', hs, hp', hq', hk, ht, hts', by simp⟩
  · rintro ⟨⟨a, o, s, p, q, k, t, ts, rfl⟩, ⟨ha, ho, hp, hq, hts, hq0, hp0⟩, hf⟩
    rw [eq_commandBytes_iff h] at hf
    simp only [commandLayout, List.forall_mem_cons, writeU8, writeU64] at hf
    obtain ⟨-, ho', ha', hs, hp', hq', hk, ht, hts', -⟩ := hf
    exact ⟨k, hk, p, ⟨hp, hp'⟩, q, ⟨hq, hq'⟩, hq0, fun hh => hp0 hh.1 hh.2, o, ⟨ho, ho'⟩, a, ⟨ha, ha'⟩, s, hs, t, ht,
      ts, ⟨hts, hts'⟩, rfl⟩

theorem decodeCancelOrder_ok (h : frame.length = cancelOrderLen) (htag : Holds frame 0 [tagCancelOrder]) :
    (decodeCancelOrder frame).run = .ok (.ok cmd) ↔
      (∃ a o, cmd = .cancelOrder a o) ∧ cmd.Decodable ∧ frame = commandBytes cmd := by
  unfold decodeCancelOrder
  simp only [cancelOrderLen] at h
  simp (disch := omega) only [run_bind_ok, run_pure_ok, readU64_ok]
  constructor
  · rintro ⟨o, ⟨ho, ho'⟩, a, ⟨ha, ha'⟩, rfl⟩
    refine ⟨⟨a, o, rfl⟩, ⟨ha, ho⟩, ?_⟩
    rw [eq_commandBytes_iff h]
    simp only [commandLayout, List.forall_mem_cons, writeU8, writeU64]
    exact ⟨htag, ho', ha', by simp⟩
  · rintro ⟨⟨a, o, rfl⟩, ⟨ha, ho⟩, hf⟩
    rw [eq_commandBytes_iff h] at hf
    simp only [commandLayout, List.forall_mem_cons, writeU8, writeU64] at hf
    exact ⟨o, ⟨ho, hf.2.1⟩, a, ⟨ha, hf.2.2.1⟩, rfl⟩

theorem decodeCancelReplace_ok (h : frame.length = cancelReplaceLen) (htag : Holds frame 0 [tagCancelReplace]) :
    (decodeCancelReplace frame).run = .ok (.ok cmd) ↔
      (∃ a o p q, cmd = .cancelReplace a o p q) ∧ cmd.Decodable ∧ frame = commandBytes cmd := by
  unfold decodeCancelReplace
  simp only [cancelReplaceLen] at h
  simp (disch := omega) only [run_bind_ok, run_guard_ok, run_pure_ok, readU64_ok]
  constructor
  · rintro ⟨q, ⟨hq, hq'⟩, hq0, o, ⟨ho, ho'⟩, a, ⟨ha, ha'⟩, p, ⟨hp, hp'⟩, rfl⟩
    refine ⟨⟨a, o, p, q, rfl⟩, ⟨ha, ho, hp, hq, hq0⟩, ?_⟩
    rw [eq_commandBytes_iff h]
    simp only [commandLayout, List.forall_mem_cons, writeU8, writeU64]
    exact ⟨htag, ho', ha', hp', hq', by simp⟩
  · rintro ⟨⟨a, o, p, q, rfl⟩, ⟨ha, ho, hp, hq, hq0⟩, hf⟩
    rw [eq_commandBytes_iff h] at hf
    simp only [commandLayout, List.forall_mem_cons, writeU8, writeU64] at hf
    obtain ⟨-, ho', ha', hp', hq', -⟩ := hf
    exact ⟨q, ⟨hq, hq'⟩, hq0, o, ⟨ho, ho'⟩, a, ⟨ha, ha'⟩, p, ⟨hp, hp'⟩, rfl⟩

theorem decodeMassCancel_ok (h : frame.length = massCancelLen) (htag : Holds frame 0 [tagMassCancel]) :
    (decodeMassCancel frame).run = .ok (.ok cmd) ↔
      (∃ a, cmd = .massCancel a) ∧ cmd.Decodable ∧ frame = commandBytes cmd := by
  unfold decodeMassCancel
  simp only [massCancelLen] at h
  simp (disch := omega) only [run_bind_ok, run_pure_ok, readU64_ok]
  constructor
  · rintro ⟨a, ⟨ha, ha'⟩, rfl⟩
    refine ⟨⟨a, rfl⟩, ha, ?_⟩
    rw [eq_commandBytes_iff h]
    simp only [commandLayout, List.forall_mem_cons, writeU8, writeU64]
    exact ⟨htag, ha', by simp⟩
  · rintro ⟨⟨a, rfl⟩, ha, hf⟩
    rw [eq_commandBytes_iff h] at hf
    simp only [commandLayout, List.forall_mem_cons, writeU8, writeU64] at hf
    exact ⟨a, ⟨ha, hf.2.1⟩, rfl⟩

theorem decodeKillSwitch_ok (h : frame.length = killSwitchLen) (htag : Holds frame 0 [tagKillSwitch]) :
    (decodeKillSwitch frame).run = .ok (.ok cmd) ↔
      (∃ engaged, cmd = .killSwitch engaged) ∧ cmd.Decodable ∧ frame = commandBytes cmd := by
  unfold decodeKillSwitch
  simp only [killSwitchLen] at h
  simp (disch := omega) only [run_bind_ok, run_pure_ok, readBool_ok]
  constructor
  · rintro ⟨engaged, he, rfl⟩
    refine ⟨⟨engaged, rfl⟩, trivial, ?_⟩
    rw [eq_commandBytes_iff h]
    simp only [commandLayout, List.forall_mem_cons, writeU8, writeBool]
    exact ⟨htag, he, by simp⟩
  · rintro ⟨⟨engaged, rfl⟩, -, hf⟩
    rw [eq_commandBytes_iff h] at hf
    simp only [commandLayout, List.forall_mem_cons, writeU8, writeBool] at hf
    exact ⟨engaged, hf.2.1, rfl⟩

/-- The first byte as a field. -/
theorem holds_head {tag : UInt8} (h : frame.head? = some tag) : Holds frame 0 [tag] := by
  cases frame with
  | nil => simp at h
  | cons b l =>
    rw [List.head?_cons, Option.some.injEq] at h
    rw [← h]
    rfl

/-- **The bytes accepted as a command are the bytes written for it.** -/
theorem decodeCommand_ok : (decodeCommand frame).run = .ok (.ok cmd) ↔ cmd.Decodable ∧ frame = commandBytes cmd := by
  unfold decodeCommand
  rw [run_bind_ok]
  simp only [frameTag_ok]
  constructor
  · rintro ⟨tag, ⟨hhead, hlen⟩, harm⟩
    have htag := holds_head hhead
    rcases messageLen_isSome hlen with hin | hout
    · simp only [inboundTags, List.mem_cons, List.not_mem_nil, or_false] at hin
      rcases hin with rfl | rfl | rfl | rfl | rfl | rfl
      · exact ((decodeNewOrder_ok (Option.some.inj hlen).symm htag).1 harm).2
      · exact ((decodeCancelOrder_ok (Option.some.inj hlen).symm htag).1 harm).2
      · exact ((decodeCancelReplace_ok (Option.some.inj hlen).symm htag).1 harm).2
      · exact ((decodeMassCancel_ok (Option.some.inj hlen).symm htag).1 harm).2
      · exact ((decodeKillSwitch_ok (Option.some.inj hlen).symm htag).1 harm).2
      · have hcmd : cmd = .snapshot := run_pure_ok.1 harm
        subst hcmd
        refine ⟨trivial, ?_⟩
        rw [eq_commandBytes_iff (Option.some.inj hlen).symm]
        simpa [commandLayout, writeU8] using htag
    · simp only [outboundTags, List.mem_cons, List.not_mem_nil, or_false] at hout
      rcases hout with rfl | rfl | rfl | rfl | rfl | rfl | rfl | rfl | rfl | rfl <;> cases harm
  · rintro ⟨hcmd, rfl⟩
    cases cmd with
    | newOrder a o s p q k t ts =>
      exact ⟨tagNewOrder, ⟨rfl, rfl⟩, (decodeNewOrder_ok rfl (holds_head rfl)).2 ⟨⟨a, o, s, p, q, k, t, ts, rfl⟩, hcmd, rfl⟩⟩
    | cancelOrder a o =>
      exact ⟨tagCancelOrder, ⟨rfl, rfl⟩, (decodeCancelOrder_ok rfl (holds_head rfl)).2 ⟨⟨a, o, rfl⟩, hcmd, rfl⟩⟩
    | cancelReplace a o p q =>
      exact ⟨tagCancelReplace, ⟨rfl, rfl⟩, (decodeCancelReplace_ok rfl (holds_head rfl)).2 ⟨⟨a, o, p, q, rfl⟩, hcmd, rfl⟩⟩
    | massCancel a => exact ⟨tagMassCancel, ⟨rfl, rfl⟩, (decodeMassCancel_ok rfl (holds_head rfl)).2 ⟨⟨a, rfl⟩, hcmd, rfl⟩⟩
    | killSwitch engaged =>
      exact ⟨tagKillSwitch, ⟨rfl, rfl⟩, (decodeKillSwitch_ok rfl (holds_head rfl)).2 ⟨⟨engaged, rfl⟩, hcmd, rfl⟩⟩
    | snapshot => exact ⟨tagSnapshot, ⟨rfl, rfl⟩, rfl⟩

/-- A command's bytes are a frame. -/
theorem isFrame_commandBytes (cmd : Command) : IsFrame messageLen (commandBytes cmd) := by
  obtain ⟨tag, -, hhead, hlen⟩ := commandBytes_tag cmd
  exact ⟨tag, hhead, hlen⟩

/-- **Encodings decode to their commands.** -/
theorem decodes_commandBytes {cmds : List Command} (h : ∀ c ∈ cmds, c.Decodable) :
    Decodes (cmds.map commandBytes) (cmds.map .ok) := by
  induction cmds with
  | nil => exact .nil
  | cons c cmds ih =>
    obtain ⟨hc, hcmds⟩ := List.forall_mem_cons.1 h
    exact .cons (decodeCommand_ok.2 ⟨hc, rfl⟩) (ih hcmds)

end Format

end MatchingEngine
