import MatchingEngine.Bin.ReplayCli
import MatchingEngine.Main.LiveRecording
import MatchingEngine.Main.Representable

/-!
# What the replay command prints

The bytes on stdout stand for the two streams: anybody who frames and decodes them gets the streams
back, event by event with their stamps, and the reports and the market data can be told apart
(`replay_stdout_reads_back`). So two replays that print the same bytes made the same streams, and
comparing the bytes compares the replays.
-/

namespace MatchingEngine

open Replay

/-- What a replay returns: the streams of one run of decoded commands, no more of them than bytes. -/
theorem Replay.replayFile_inv {P : Profile} {bytes : List UInt8} {config : RiskConfig} {out : ReplayOutput}
    (h : replayFile P bytes config = .ok (.ok out)) :
    ∃ cmds s evss, decodeRecording bytes = .ok (.ok cmds) ∧ (System.new config).runFrom P cmds = .ok (s, evss) ∧
      out.executionReports = (evss.flatten.foldl Streams.emit ⟨[], [], 0, 0⟩).executionReports ∧
      out.marketData = (evss.flatten.foldl Streams.emit ⟨[], [], 0, 0⟩).marketData := by
  unfold replayFile at h
  obtain ⟨decoded, hdecode, h⟩ := exists_of_bind_ok h
  cases decoded with
  | error err => cases h
  | ok cmds =>
    obtain ⟨⟨s, evss⟩, hrun, h⟩ := exists_of_bind_ok h
    obtain rfl := Except.ok.inj (Except.ok.inj h)
    exact ⟨cmds, s, evss, hdecode, hrun, rfl, rfl⟩

/-- Stamps counted from one. -/
theorem stamp_lt {α : Type*} {l : List (ℕ × α)} {n : ℕ} (hnum : l.map Prod.fst = List.range' 1 n) (hfew : l.length < 2 ^ 64)
    {x : ℕ × α} (hx : x ∈ l) : x.1 < 2 ^ 64 := by
  have hlen : l.length = n := by
    rw [← List.length_map (f := Prod.fst), hnum, List.length_range']
  have hmem : x.1 ∈ List.range' 1 n := hnum ▸ List.mem_map_of_mem hx
  rw [List.mem_range'_1] at hmem
  omega

/-- **What replay prints can be read back.** Of any recording the release build replays, with fewer than `2 ^ 64`
bytes and as many events of each kind: the command prints, and whoever has read any beginning of what it printed, in
any chunks, has decoded the first of the reports, stamped and numbered as they were, and then of the market data; all
of them if all of it. No report is market data, and all the market data is. -/
theorem replay_stdout_reads_back (config : RiskConfig) {bytes : List UInt8} {out : ReplayOutput}
    (hreplay : replayFile .release bytes config = .ok (.ok out)) (hbytes : bytes.length < 2 ^ 64)
    (hreports : out.executionReports.length < 2 ^ 64) (hmarket : out.marketData.length < 2 ^ 64) :
    (∃ stdout, writeOutput out = .ok stdout ∧ ∀ chunks, chunks.flatten <+: stdout →
      ∃ m kept, Framer.new.feedChunks (Client.onFrame Client.keep) [] chunks = .ok (kept, out.stamped.take m, .ok ()) ∧
        (chunks.flatten = stdout → out.stamped.take m = out.stamped)) ∧
    (∀ x ∈ out.executionReports, x.2.2.isMarketData = false) ∧ ∀ x ∈ out.marketData, x.2.isMarketData = true := by
  obtain ⟨cmds, s, evss, hdecode, hrun, hrep, hmd⟩ := Replay.replayFile_inv hreplay
  obtain ⟨hcmds, hlen⟩ := decodeRecording_decodable hdecode
  have htyped := System.run_new_typed hcmds (lt_of_le_of_lt hlen hbytes) hrun
  obtain ⟨hreps, hmds, hnum⟩ := Streams.foldl_emit evss.flatten ⟨[], [], 0, 0⟩
  obtain ⟨hrepnum, hmdnum⟩ := hnum ⟨rfl, rfl⟩
  rw [← hrep, List.map_nil, List.nil_append] at hreps
  rw [← hmd, List.map_nil, List.nil_append] at hmds
  rw [← hrep] at hrepnum
  rw [← hmd] at hmdnum
  -- each event of a stream is one the run emitted
  have hrepmem : ∀ x ∈ out.executionReports, x.2 ∈ evss.flatten ∧ x.2.2.isMarketData = false := by
    intro x hx
    have hmem : x.2 ∈ evss.flatten.filter (fun e => !e.2.isMarketData) := hreps ▸ List.mem_map_of_mem hx
    obtain ⟨hin, hkind⟩ := List.mem_filter.1 hmem
    exact ⟨hin, by simpa using hkind⟩
  have hmdmem : ∀ x ∈ out.marketData, ∃ e ∈ evss.flatten, e.2 = x.2 ∧ x.2.isMarketData = true := by
    intro x hx
    have hmem : x.2 ∈ (evss.flatten.filter (fun e => e.2.isMarketData)).map Prod.snd := hmds ▸ List.mem_map_of_mem hx
    obtain ⟨e, he, heq⟩ := List.mem_map.1 hmem
    obtain ⟨hin, hkind⟩ := List.mem_filter.1 he
    exact ⟨e, hin, heq, heq ▸ hkind⟩
  have hseqs : ∀ x ∈ evss.flatten, x.1 < 2 ^ 64 := by
    intro x hx
    obtain ⟨evs, hevs, hx⟩ := List.mem_flatten.1 hx
    obtain ⟨j, hj⟩ := List.mem_iff_getElem?.1 hevs
    obtain ⟨hlt, -⟩ := List.getElem?_eq_some_iff.1 hj
    rw [run_length hrun] at hlt
    have hseq := MatchingThread.runFrom_numbers hrun hj x hx
    have hzero : (System.new config).engineSeq = 0 := rfl
    omega
  obtain ⟨fs, hwrite, hmsgs⟩ := writeOutput_messages
    (fun x hx => ⟨stamp_lt hrepnum hreports hx, hseqs _ (hrepmem x hx).1, htyped _ (hrepmem x hx).1⟩)
    (fun x hx => by
      obtain ⟨e, he, heq, hkind⟩ := hmdmem x hx
      exact ⟨stamp_lt hmdnum hmarket hx, Event.isReport_of_isMarketData hkind, heq ▸ htyped e he⟩)
  refine ⟨⟨fs.flatten, hwrite, fun chunks hread => ?_⟩, fun x hx => (hrepmem x hx).2, fun x hx => ?_⟩
  · obtain ⟨m, kept, hgot, hall⟩ := Client.feedChunks_messages Client.keep hmsgs hread []
    rw [Client.foldl_keep, List.nil_append] at hgot
    exact ⟨m, kept, hgot, fun hwhole => (hall hwhole).1⟩
  · obtain ⟨-, -, -, hkind⟩ := hmdmem x hx
    exact hkind

/-- The recording of two orders that trade. -/
def twoOrders : List UInt8 :=
  ([.newOrder 1 1 .sell 100 5 .limit .gtc 0, .newOrder 2 1 .buy 100 3 .limit .gtc 0].map commandBytes).flatten

theorem replay_stdout_reads_back_two_orders :
    ∃ out, replayFile .release twoOrders .default = .ok (.ok out) ∧ out.executionReports.length = 4 ∧
      (∃ stdout, writeOutput out = .ok stdout ∧ ∀ chunks, chunks.flatten <+: stdout →
        ∃ m kept, Framer.new.feedChunks (Client.onFrame Client.keep) [] chunks = .ok (kept, out.stamped.take m, .ok ()) ∧
          (chunks.flatten = stdout → out.stamped.take m = out.stamped)) ∧
      (∀ x ∈ out.executionReports, x.2.2.isMarketData = false) ∧ ∀ x ∈ out.marketData, x.2.isMarketData = true := by
  obtain ⟨r, hreplay, hr⟩ := exists_ok_of_decide (x := replayFile .release twoOrders .default)
    (p := fun r => r.toOption.any (fun out => out.executionReports.length = 4 ∧ out.marketData.length = 3) = true)
    (by decide +kernel)
  cases r with
  | error err => cases hr
  | ok out =>
    obtain ⟨hreports, hmarket⟩ : out.executionReports.length = 4 ∧ out.marketData.length = 3 := of_decide_eq_true hr
    refine ⟨out, hreplay, hreports, replay_stdout_reads_back .default hreplay (by decide) ?_ ?_⟩
    · omega
    · omega

end MatchingEngine
