import MatchingEngine.Wire.Outbound
import MatchingEngine.Gateway.Reader
import MatchingEngine.Bin.Replay

/-!
# Which bytes make the decoders panic

`decoding_panics_exactly`: each decoder returns on every byte string except the whole
frames of the other direction, which its `unreachable!` is written for; and so the
connection reader, however its reads are cut, and the replay of a recording handle every
stream except those that carry an outbound frame. One 33-byte `Cancelled` report, sent
back by a client or left in a recording, stops either (`cancelled_report_panics`).
-/

namespace MatchingEngine

open Reader Replay

/-- **The bytes the network-facing decoders handle**: all but the frames of the other direction. Where
the reader or the replay does not panic, every frame it extracted was a command, a reject or an error. -/
theorem decoding_panics_exactly (frame bytes : List UInt8) (connId : ConnId) (chunks : List (List UInt8)) :
    ((∃ r, (decodeCommand frame).run = .ok r) ↔ ¬ Tagged outboundTags frame) ∧
    ((∃ r, (decodeEvent frame).run = .ok r) ↔ ¬ Tagged inboundTags frame) ∧
    (((∃ out, runReader connId .new ⟨[], []⟩ chunks = .ok out) ↔
        ¬ Carries messageLen (Tagged outboundTags) (received chunks)) ∧
      ∀ out, runReader connId .new ⟨[], []⟩ chunks = .ok out → Reader.Handles connId (received chunks) out) ∧
    (((∃ out, decodeRecording bytes = .ok out) ↔ ¬ Carries messageLen (Tagged outboundTags) bytes) ∧
      ∀ out, decodeRecording bytes = .ok out → Replay.Handles bytes out) := by
  refine ⟨decodeCommand_ok_iff, decodeEvent_ok_iff, ⟨runReader_ok_iff chunks, ?_⟩, decodeRecording_ok_iff bytes, ?_⟩
  · intro out hout
    exact runReader_handles hout
  · intro out hout
    exact decodeRecording_handles hout

/-- Two commands in three reads, one of them cut, and an unknown tag that ends the connection. -/
theorem decoding_panics_exactly_cut :
    runReader 7 .new ⟨[], []⟩ [[tagSnapshot, tagKillSwitch], [1], [99, tagCancelled]] =
      .ok ⟨[(7, .snapshot), (7, .killSwitch true)], [(7, 0, .rejected 0 0 .unknownMessageType)]⟩ ∧
    Reader.Handles 7 [tagSnapshot, tagKillSwitch, 1, 99, tagCancelled]
      ⟨[(7, .snapshot), (7, .killSwitch true)], [(7, 0, .rejected 0 0 .unknownMessageType)]⟩ :=
  ⟨rfl, (decoding_panics_exactly [] [] 7 [[tagSnapshot, tagKillSwitch], [1], [99, tagCancelled]]).2.2.1.2 _ rfl⟩

/-- **A report sent back stops the reader and the replay**, and a snapshot request or a cancel stops
whoever decodes events: the first is too short for a stream number. -/
theorem cancelled_report_panics :
    (decodeCommand (tagCancelled :: List.replicate 32 0)).run = .error tagHandled ∧
    (decodeEvent [tagSnapshot]).run = .error .indexOutOfRange ∧
    (decodeEvent (tagCancelOrder :: List.replicate 16 0)).run = .error tagHandled ∧
    runReader 1 .new ⟨[], []⟩ [[tagSnapshot, tagCancelled], List.replicate 32 0] = .error tagHandled ∧
    replayFile .release (tagCancelled :: List.replicate 32 0) .default = .error tagHandled := by
  refine ⟨?_, ?_, ?_, ?_, ?_⟩
  all_goals rfl

end MatchingEngine
