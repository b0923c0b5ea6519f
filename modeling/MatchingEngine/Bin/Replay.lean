import MatchingEngine.Gateway.Matching

/-!
# Replaying a recording

`bin::replay_file` on the contents of a recording: the bytes are framed and decoded like a
connection's, all of them before the first command runs, and the commands then go through
the same risk gate and engine as live traffic. An unknown tag, or else the first refused
frame, is an error of the whole recording.

* `decodeRecording_prefix`: a recording cut short gives the commands it still holds whole.
* `Streams.foldl_emit`: the two streams replay returns.
-/

namespace MatchingEngine

/-- `{reason:?}`. -/
def RejectReason.debug : RejectReason → String
  | .malformedMessage => "MalformedMessage"
  | .unknownMessageType => "UnknownMessageType"
  | .duplicateOrderId => "DuplicateOrderId"
  | .unknownOrderId => "UnknownOrderId"
  | .zeroQuantity => "ZeroQuantity"
  | .wouldCross => "WouldCross"
  | .notFullyFillable => "NotFullyFillable"
  | .killSwitchActive => "KillSwitchActive"
  | .maxOpenOrders => "MaxOpenOrders"
  | .maxNotional => "MaxNotional"
  | .priceBandViolation => "PriceBandViolation"
  | .zeroPrice => "ZeroPrice"

namespace Replay

/-- `commands` and `decode_error` while the recording is framed. -/
structure Decoded where
  commands : List Command
  decodeError : Option String

/-- A command, or an error if it is the first. -/
def record (out : Decoded) : Except RejectReason Command → Decoded
  | .ok cmd => { out with commands := out.commands ++ [cmd] }
  | .error reason =>
    { out with decodeError := out.decodeError.or (some ("malformed command in recording: " ++ reason.debug)) }

/-- The callback on one frame. -/
def onFrame (out : Decoded) (frame : List UInt8) : Except Panic Decoded := do
  let decoded ← (decodeCommand frame).run
  pure (record out decoded)

/-- A framing error comes before a decode error. -/
def verdict (frameResult : Except RejectReason Unit) (out : Decoded) : Except String (List Command) :=
  match frameResult with
  | .error reason => .error ("recording contains an unrecognized message tag: " ++ reason.debug)
  | .ok () =>
    match out.decodeError with
    | some err => .error err
    | none => .ok out.commands

/-- The commands of a recording, or what is wrong with it. -/
def decodeRecording (bytes : List UInt8) : Except Panic (Except String (List Command)) := do
  let (_, out, frameResult) ← (Framer.new.feed bytes).drainFrames onFrame ⟨[], none⟩
  pure (verdict frameResult out)

structure ReplayOutput where
  executionReports : List (ℕ × ℕ × Event)
  marketData : List (ℕ × Event)
  lastTrade : Option ℕ
  deriving DecidableEq

/-- The two streams and their counters. -/
structure Streams where
  executionReports : List (ℕ × ℕ × Event)
  marketData : List (ℕ × Event)
  execSeq : ℕ
  mdSeq : ℕ

/-- The sink `replay_file` gives to `process_command`. -/
def Streams.emit (out : Streams) : ℕ × Event → Streams
  | (_, .trade p q t) =>
    { out with mdSeq := out.mdSeq + 1, marketData := out.marketData ++ [(out.mdSeq + 1, .trade p q t)] }
  | (_, .bookUpdate bid ask) =>
    { out with mdSeq := out.mdSeq + 1, marketData := out.marketData ++ [(out.mdSeq + 1, .bookUpdate bid ask)] }
  | (seq, event) =>
    { out with execSeq := out.execSeq + 1, executionReports := out.executionReports ++ [(out.execSeq + 1, seq, event)] }

/-- `replay_file`, the recording read and the risk limits loaded. -/
def replayFile (P : Profile) (bytes : List UInt8) (config : RiskConfig) :
    Except Panic (Except String ReplayOutput) := do
  match ← decodeRecording bytes with
  | .error err => pure (.error err)
  | .ok commands =>
    let (s, evss) ← (System.new config).runFrom P commands
    let out := evss.flatten.foldl Streams.emit ⟨[], [], 0, 0⟩
    pure (.ok ⟨out.executionReports, out.marketData, s.engine.book.lastTrade⟩)

/-- Every frame of the recording was decoded, in order, and gave a command or an error. -/
def Handles (bytes : List UInt8) (out : Except String (List Command)) : Prop :=
  ∃ fs rs rest result, Cut messageLen bytes fs rest ∧ Framer.Ends rest result ∧ Decodes fs rs ∧
    out = verdict result (rs.foldl record ⟨[], none⟩)

theorem decodeRecording_ok (bytes : List UInt8) :
    ∃ fs rest result, Cut messageLen bytes fs rest ∧ Framer.Ends rest result ∧
      ∀ out, decodeRecording bytes = .ok out ↔
        ∃ rs, Decodes fs rs ∧ out = verdict result (rs.foldl record ⟨[], none⟩) := by
  obtain ⟨fs, rest, result, hcut, hends, hdrain⟩ := (Framer.new.feed bytes).drainFrames_eq onFrame
  refine ⟨fs, rest, result, hcut, hends, fun out => ?_⟩
  unfold decodeRecording
  rw [hdrain ⟨[], none⟩, bind_assoc]
  exact foldlM_record _ out fs

/-- **Decoding panics on the recordings that carry an outbound frame.** -/
theorem decodeRecording_ok_iff (bytes : List UInt8) :
    (∃ out, decodeRecording bytes = .ok out) ↔ ¬ Carries messageLen (Tagged outboundTags) bytes := by
  obtain ⟨fs, rest, result, hcut, -, hrun⟩ := decodeRecording_ok bytes
  rw [← decodes_iff hcut]
  exact exists_ok_iff hrun

/-- **Every frame of the others gives a command or an error.** -/
theorem decodeRecording_handles {bytes : List UInt8} {out : Except String (List Command)}
    (h : decodeRecording bytes = .ok out) : Handles bytes out := by
  obtain ⟨fs, rest, result, hcut, hends, hrun⟩ := decodeRecording_ok bytes
  obtain ⟨rs, hrs, hout⟩ := (hrun out).1 h
  exact ⟨fs, rs, rest, result, hcut, hends, hrs, hout⟩

/-- Commands that were decoded, and no errors, are recorded as they are. -/
theorem verdict_commands (cmds : List Command) :
    verdict (.ok ()) ((cmds.map Except.ok).foldl record ⟨[], none⟩) = .ok cmds := by
  have hfold : ∀ acc, (cmds.map Except.ok).foldl record ⟨acc, none⟩ = ⟨acc ++ cmds, none⟩ := by
    induction cmds with
    | nil =>
      intro acc
      rw [List.append_nil]
      rfl
    | cons c cmds ih =>
      intro acc
      rw [List.map_cons, List.foldl_cons, show record ⟨acc, none⟩ (.ok c) = ⟨acc ++ [c], none⟩ from rfl, ih,
        List.append_assoc]
      rfl
  rw [hfold, List.nil_append]
  rfl

/-- **A recording cut short decodes to the commands that are left whole**, and to no more of them. -/
theorem decodeRecording_prefix {cmds : List Command} (hcmds : ∀ c ∈ cmds, c.Decodable) {bytes : List UInt8}
    (hb : bytes <+: (cmds.map commandBytes).flatten) :
    ∃ k ≤ cmds.length, decodeRecording bytes = .ok (.ok (cmds.take k)) ∧
      ((cmds.take k).map commandBytes).flatten <+: bytes ∧
      ∀ j ≤ cmds.length, ((cmds.take j).map commandBytes).flatten <+: bytes → j ≤ k := by
  have hwhole : ∀ cs : List Command, ∀ f ∈ cs.map commandBytes, IsFrame messageLen f := by
    intro cs
    rw [List.forall_mem_map]
    exact fun c _ => isFrame_commandBytes c
  obtain ⟨k, rest, hk, hcut, hu⟩ := Cut.of_prefix (hwhole cmds) hb
  rw [List.length_map] at hk
  rw [← List.map_take] at hcut
  refine ⟨k, hk, ?_, ⟨rest, hcut.eq⟩, ?_⟩
  · obtain ⟨fs, rest', result, hcut', hends, hrun⟩ := decodeRecording_ok bytes
    obtain ⟨rfl, rfl⟩ := hcut.unique hcut'
    obtain rfl : result = .ok () := @Framer.Ends.unique _ _ (.ok ()) hends hu
    refine (hrun _).2 ⟨(cmds.take k).map Except.ok, decodes_commandBytes ?_, (verdict_commands _).symm⟩
    exact fun c hc => hcmds c (List.mem_of_mem_take hc)
  · rintro j hj ⟨c, hc⟩
    obtain ⟨fs', hfs, -⟩ := hcut.drop_frames (hwhole (cmds.take j)) hc.symm
    have hlen := congrArg List.length hfs
    simp only [List.length_map, List.length_take, List.length_append] at hlen
    omega

/-! ### The two streams -/

/-- The numbers of each stream run 1, 2, 3, … up to its counter. -/
def Streams.Numbered (out : Streams) : Prop :=
  out.executionReports.map Prod.fst = List.range' 1 out.execSeq ∧
  out.marketData.map Prod.fst = List.range' 1 out.mdSeq

/-- One event goes to the stream of its kind, under the next number. -/
theorem Streams.emit_spec (out : Streams) (e : ℕ × Event) :
    (out.emit e).executionReports.map Prod.snd =
        out.executionReports.map Prod.snd ++ [e].filter (fun e => !e.2.isMarketData) ∧
      (out.emit e).marketData.map Prod.snd =
        out.marketData.map Prod.snd ++ ([e].filter (fun e => e.2.isMarketData)).map Prod.snd ∧
      (out.Numbered → (out.emit e).Numbered) := by
  obtain ⟨seq, ev⟩ := e
  cases ev <;> simp [Streams.emit, Event.isMarketData, Streams.Numbered, List.range'_concat, Nat.add_comm]

/-- **The events split by kind**, in order and numbered. -/
theorem Streams.foldl_emit (evs : List (ℕ × Event)) (out : Streams) :
    (evs.foldl Streams.emit out).executionReports.map Prod.snd =
        out.executionReports.map Prod.snd ++ evs.filter (fun e => !e.2.isMarketData) ∧
      (evs.foldl Streams.emit out).marketData.map Prod.snd =
        out.marketData.map Prod.snd ++ (evs.filter (fun e => e.2.isMarketData)).map Prod.snd ∧
      (out.Numbered → (evs.foldl Streams.emit out).Numbered) := by
  induction evs generalizing out with
  | nil => simp
  | cons e evs ih =>
    obtain ⟨h1, h2, h3⟩ := out.emit_spec e
    obtain ⟨i1, i2, i3⟩ := ih (out.emit e)
    rw [List.foldl_cons, i1, i2, h1, h2, List.append_assoc, List.append_assoc, ← List.map_append,
      ← List.filter_append, ← List.filter_append]
    exact ⟨rfl, rfl, fun h => i3 (h3 h)⟩

end Replay

end MatchingEngine
