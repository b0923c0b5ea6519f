import MatchingEngine.Bin.Replay
import MatchingEngine.Bench.Client

/-!
# The replay command

`write_output` of the `replay` binary: the execution reports and then the market data, encoded with
their stamps, one behind the other on stdout. Writes to stdout are taken to succeed.

* `decodeRecording_decodable`: the commands of a recording were decoded, and are no more than its bytes.
* `writeOutput_messages`: stdout is one message for each event.
-/

namespace MatchingEngine

namespace Replay

/-- `write_one`: `buf[..len]` of a fresh buffer. -/
def writeOne (seq : ℕ) (engineSeq : Option ℕ) (event : Event) : Except Panic (List UInt8) := do
  let (buf, len) ← encodeEvent seq engineSeq event (List.replicate maxMessageLen 0)
  pure (buf.take len)

/-- What `write_output` writes to stdout. -/
def writeOutput (output : ReplayOutput) : Except Panic (List UInt8) := do
  let reports ← output.executionReports.mapM fun (seq, engineSeq, event) => writeOne seq (some engineSeq) event
  let marketData ← output.marketData.mapM fun (seq, event) => writeOne seq none event
  pure (reports.flatten ++ marketData.flatten)

/-- The two streams as a reader of stdout gets them. -/
def ReplayOutput.stamped (output : ReplayOutput) : List Stamped :=
  output.executionReports.map (fun x => x.2.2.stamped x.1 x.2.1) ++ output.marketData.map (fun x => (x.1, none, x.2))

/-! ### The commands of a recording -/

theorem foldl_record (rs : List (Except RejectReason Command)) (out : Decoded) :
    (∀ c ∈ (rs.foldl record out).commands, c ∈ out.commands ∨ .ok c ∈ rs) ∧
      (rs.foldl record out).commands.length ≤ out.commands.length + rs.length := by
  induction rs generalizing out with
  | nil => exact ⟨fun c hc => Or.inl hc, Nat.le_refl _⟩
  | cons r rs ih =>
    obtain ⟨hmem, hlen⟩ := ih (record out r)
    rw [List.foldl_cons, List.length_cons]
    cases r with
    | ok cmd =>
      have hsnoc : (record out (.ok cmd)).commands = out.commands ++ [cmd] := rfl
      rw [hsnoc] at hmem hlen
      refine ⟨fun c hc => ?_, by simp only [List.length_append, List.length_singleton] at hlen; omega⟩
      rcases hmem c hc with hin | hin
      · rcases List.mem_append.1 hin with hin | hin
        · exact Or.inl hin
        · rw [List.mem_singleton.1 hin]
          exact Or.inr List.mem_cons_self
      · exact Or.inr (List.mem_cons_of_mem _ hin)
    | error reason =>
      have hsame : (record out (.error reason)).commands = out.commands := rfl
      rw [hsame] at hmem hlen
      refine ⟨fun c hc => ?_, by omega⟩
      rcases hmem c hc with hin | hin
      · exact Or.inl hin
      · exact Or.inr (List.mem_cons_of_mem _ hin)

/-- The commands of a recording were decoded from its frames. -/
theorem decodeRecording_decodable {bytes : List UInt8} {cmds : List Command} (h : decodeRecording bytes = .ok (.ok cmds)) :
    (∀ c ∈ cmds, c.Decodable) ∧ cmds.length ≤ bytes.length := by
  obtain ⟨fs, rs, rest, result, hcut, -, hdec, hverdict⟩ := decodeRecording_handles h
  have hcmds : cmds = (rs.foldl record ⟨[], none⟩).commands := by
    unfold verdict at hverdict
    cases result with
    | error reason => cases hverdict
    | ok u =>
      dsimp only at hverdict
      split at hverdict
      · cases hverdict
      · exact Except.ok.inj hverdict
  obtain ⟨hmem, hlen⟩ := foldl_record rs ⟨[], none⟩
  rw [hcmds]
  refine ⟨fun c hc => ?_, ?_⟩
  · have hin : .ok c ∈ rs := (hmem c hc).resolve_left List.not_mem_nil
    obtain ⟨j, hj⟩ := List.mem_iff_getElem?.1 hin
    obtain ⟨hlt, hget⟩ := List.getElem?_eq_some_iff.1 hj
    have hframe := hdec.get (hdec.length_eq ▸ hlt) hlt
    rw [List.get_eq_getElem, List.get_eq_getElem, hget] at hframe
    exact (decodeCommand_ok.1 hframe).1
  · have hfs := hcut.length_le
    rw [hdec.length_eq] at hfs
    exact hlen.trans (by simpa using hfs)

/-! ### What is on stdout -/

theorem writeOne_encodes {seq : ℕ} {engineSeq : Option ℕ} {ev : Event} {bytes : List UInt8}
    (h : Encodes (encodeEvent seq engineSeq ev) bytes) : writeOne seq engineSeq ev = .ok bytes := by
  obtain ⟨buf, hbuf, htake⟩ := h (List.replicate maxMessageLen 0) (by simp)
  unfold writeOne
  rw [hbuf]
  exact congrArg Except.ok htake

/-- An event that is no report goes out without a number. -/
theorem writeOne_message {seq : ℕ} {ev : Event} (hseq : seq < 2 ^ 64) (hkind : ev.isReport = false) (hev : ev.Typed) :
    ∃ bytes, writeOne seq none ev = .ok bytes ∧ Message bytes (seq, none, ev) := by
  obtain ⟨bytes, henc⟩ := Event.encodes seq 0 ev
  have hmsg := Event.message henc hseq (Nat.two_pow_pos 64) hev
  rw [← Event.encodeEvent_none hkind] at henc
  unfold Event.stamped at hmsg
  rw [hkind] at hmsg
  exact ⟨bytes, writeOne_encodes henc, hmsg⟩

/-- Messages written one by one. -/
theorem mapM_messages {α : Type} (write : α → Except Panic (List UInt8)) (read : α → Stamped) {l : List α}
    (h : ∀ x ∈ l, ∃ bytes, write x = .ok bytes ∧ Message bytes (read x)) :
    ∃ fs, l.mapM write = .ok fs ∧ List.Forall₂ Message fs (l.map read) := by
  induction l with
  | nil => exact ⟨[], rfl, .nil⟩
  | cons x l ih =>
    obtain ⟨hx, hl⟩ := List.forall_mem_cons.1 h
    obtain ⟨bytes, hwrite, hmsg⟩ := hx
    obtain ⟨fs, hmap, hmsgs⟩ := ih hl
    refine ⟨bytes :: fs, ?_, .cons hmsg hmsgs⟩
    rw [List.mapM_cons, hwrite, hmap]
    rfl

/-- **Stdout is one message for each event**, the reports first. -/
theorem writeOutput_messages {out : ReplayOutput}
    (hreports : ∀ x ∈ out.executionReports, x.1 < 2 ^ 64 ∧ x.2.1 < 2 ^ 64 ∧ x.2.2.Typed)
    (hmarket : ∀ x ∈ out.marketData, x.1 < 2 ^ 64 ∧ x.2.isReport = false ∧ x.2.Typed) :
    ∃ fs, writeOutput out = .ok fs.flatten ∧ List.Forall₂ Message fs out.stamped := by
  obtain ⟨fs, hfs, hmsgs⟩ := mapM_messages (l := out.executionReports)
    (fun x => writeOne x.1 (some x.2.1) x.2.2) (fun x => x.2.2.stamped x.1 x.2.1) (fun x hx => by
      obtain ⟨hseq, heng, hev⟩ := hreports x hx
      obtain ⟨bytes, henc⟩ := Event.encodes x.1 x.2.1 x.2.2
      exact ⟨bytes, writeOne_encodes henc, Event.message henc hseq heng hev⟩)
  obtain ⟨gs, hgs, hmsgs'⟩ := mapM_messages (l := out.marketData) (fun x => writeOne x.1 none x.2)
    (fun x => (x.1, none, x.2)) (fun x hx => by
      obtain ⟨hseq, hkind, hev⟩ := hmarket x hx
      exact writeOne_message hseq hkind hev)
  refine ⟨fs ++ gs, ?_, List.rel_append hmsgs hmsgs'⟩
  unfold writeOutput
  rw [bind_of_ok hfs, bind_of_ok hgs, List.flatten_append]
  rfl

end Replay

end MatchingEngine
