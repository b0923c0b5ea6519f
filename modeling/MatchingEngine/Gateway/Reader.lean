import MatchingEngine.Wire.Framer
import MatchingEngine.Wire.Inbound

/-!
# The connection reader

`gateway::order_entry`: the read side of a connection. Every read appends to the framer
and every whole frame is decoded; a command goes to the matching thread, a refused frame
back to the client as a reject without an engine number. A tag the framer does not know
ends the connection with one more reject.

`runReader_eq`: whatever the reads, the reader handles the frames of the bytes received
one after the other, so how the stream was cut into reads does not show. It panics
exactly on the streams that carry an outbound frame (`runReader_ok_iff`).
-/

namespace MatchingEngine

/-- `ConnId`. -/
abbrev ConnId := ℕ

/-- `WIRE_LEVEL_REJECT_ENGINE_SEQ`: the number of a reject that never was a command. -/
def wireLevelRejectEngineSeq : ℕ := 0

/-- A reject nobody can be named for. -/
def malformedReject (reason : RejectReason) : Event := .rejected 0 0 reason

/-- What a reader has put on its two channels. -/
structure Sent where
  commands : List (ConnId × Command)
  returns : List (ConnId × ℕ × Event)
  deriving DecidableEq

namespace Reader

def reject (connId : ConnId) (reason : RejectReason) (out : Sent) : Sent :=
  { out with returns := out.returns ++ [(connId, wireLevelRejectEngineSeq, malformedReject reason)] }

/-- A command for the matching thread, or a reject for the client. -/
def answer (connId : ConnId) (out : Sent) : Except RejectReason Command → Sent
  | .ok cmd => { out with commands := out.commands ++ [(connId, cmd)] }
  | .error reason => reject connId reason out

/-- The reader's callback on one frame. -/
def onFrame (connId : ConnId) (out : Sent) (frame : List UInt8) : Except Panic Sent := do
  let decoded ← (decodeCommand frame).run
  pure (answer connId out decoded)

/-- `run_reader` on the results of its successive reads; a read of nothing, or none, closes it. -/
def runReader (connId : ConnId) : Framer → Sent → List (List UInt8) → Except Panic Sent
  | _, out, [] => pure out
  | framer, out, chunk :: chunks =>
    if chunk = [] then pure out
    else do
      let (framer, out, result) ← (framer.feed chunk).drainFrames (onFrame connId) out
      match result with
      | .error _ => pure (reject connId .unknownMessageType out)
      | .ok () => runReader connId framer out chunks

/-- The bytes received before the connection closes. -/
def received (chunks : List (List UInt8)) : List UInt8 := (chunks.takeWhile (· ≠ [])).flatten

/-- How the connection ends. -/
def close (connId : ConnId) : Except RejectReason Unit → Sent → Sent
  | .ok (), out => out
  | .error _, out => reject connId .unknownMessageType out

variable {connId : ConnId}

/-- The reader drains the framer read by read until the connection closes. -/
theorem runReader_feedChunks (framer : Framer) (out : Sent) (chunks : List (List UInt8)) :
    runReader connId framer out chunks = framer.feedChunks (onFrame connId) out (chunks.takeWhile (· ≠ [])) >>=
      fun r => pure (close connId r.2.2 r.2.1) := by
  induction chunks generalizing framer out with
  | nil => rfl
  | cons chunk chunks ih =>
    by_cases hchunk : chunk = []
    · subst hchunk
      rfl
    · rw [List.takeWhile_cons_of_pos (by simpa using hchunk), runReader, if_neg hchunk, Framer.feedChunks, bind_assoc]
      congr 1
      funext r
      obtain ⟨framer', out', result⟩ := r
      cases result with
      | error reason => rfl
      | ok u => exact ih framer' out'

/-- **The reader is a fold over the frames received**, for every chunking. -/
theorem runReader_eq (chunks : List (List UInt8)) :
    ∃ fs rest result, Cut messageLen (received chunks) fs rest ∧ Framer.Ends rest result ∧
      ∀ out, runReader connId .new out chunks =
        fs.foldlM (onFrame connId) out >>= fun out => pure (close connId result out) := by
  obtain ⟨fs, rest, result, kept, hcut, hends, -, hrun⟩ :=
    Framer.feedChunks_eq (onFrame connId) .new unfinished_nil (chunks.takeWhile (· ≠ []))
  refine ⟨fs, rest, result, hcut, hends, fun out => ?_⟩
  rw [runReader_feedChunks, hrun, bind_assoc]
  rfl

/-- Every frame of the bytes received was decoded, in order, and answered by a command or a reject; an
unknown tag was answered by one more. -/
def Handles (connId : ConnId) (bytes : List UInt8) (out : Sent) : Prop :=
  ∃ fs rs rest result, Cut messageLen bytes fs rest ∧ Framer.Ends rest result ∧ Decodes fs rs ∧
    out = close connId result (rs.foldl (answer connId) ⟨[], []⟩)

theorem runReader_ok (chunks : List (List UInt8)) :
    ∃ fs rest result, Cut messageLen (received chunks) fs rest ∧ Framer.Ends rest result ∧
      ∀ out, runReader connId .new ⟨[], []⟩ chunks = .ok out ↔
        ∃ rs, Decodes fs rs ∧ out = close connId result (rs.foldl (answer connId) ⟨[], []⟩) := by
  obtain ⟨fs, rest, result, hcut, hends, hrun⟩ := @runReader_eq connId chunks
  refine ⟨fs, rest, result, hcut, hends, fun out => ?_⟩
  rw [hrun]
  exact foldlM_record _ out fs

/-- **The reader panics on the streams that carry an outbound frame.** -/
theorem runReader_ok_iff (chunks : List (List UInt8)) :
    (∃ out, runReader connId .new ⟨[], []⟩ chunks = .ok out) ↔
      ¬ Carries messageLen (Tagged outboundTags) (received chunks) := by
  obtain ⟨fs, rest, result, hcut, -, hrun⟩ := @runReader_ok connId chunks
  rw [← decodes_iff hcut]
  exact exists_ok_iff hrun

/-- **The reader answers every frame of the others.** -/
theorem runReader_handles {chunks : List (List UInt8)} {out : Sent}
    (h : runReader connId .new ⟨[], []⟩ chunks = .ok out) : Handles connId (received chunks) out := by
  obtain ⟨fs, rest, result, hcut, hends, hrun⟩ := @runReader_ok connId chunks
  obtain ⟨rs, hrs, hout⟩ := (hrun out).1 h
  exact ⟨fs, rs, rest, result, hcut, hends, hrs, hout⟩

end Reader

end MatchingEngine
