import MatchingEngine.Bin.Replay

/-!
# Recording, then replay

What the matching thread records is what `replay_file` reads back: any beginning of the
recording replays as the live run of the commands it holds whole.
-/

namespace MatchingEngine

open Replay

/-- `k` commands is the longest beginning of `cmds` whose recording lies wholly in `bytes`. -/
def WhollyIn (cmds : List Command) (bytes : List UInt8) (k : ℕ) : Prop :=
  k ≤ cmds.length ∧ (∃ r, recording (cmds.take k) = .ok r ∧ r <+: bytes) ∧
  ∀ j r, j ≤ cmds.length → recording (cmds.take j) = .ok r → r <+: bytes → j ≤ k

/-- What replay returned is what the live run of `evss`, ending in `s`, emitted: split by kind, the order
kept, each stream numbered from one. -/
structure Replay.ReplayOutput.Reproduces (out : ReplayOutput) (s : System) (evss : List (List (ℕ × Event))) : Prop where
  reports : out.executionReports.map Prod.snd = evss.flatten.filter (fun e => !e.2.isMarketData)
  marketData : out.marketData.map Prod.snd = (evss.flatten.filter (fun e => e.2.isMarketData)).map Prod.snd
  reportSeqs : out.executionReports.map Prod.fst = List.range' 1 out.executionReports.length
  marketDataSeqs : out.marketData.map Prod.fst = List.range' 1 out.marketData.length
  lastTrade : out.lastTrade = s.engine.book.lastTrade

/-- **Recording, then replay, reproduces the live run**, for any beginning of the recording. -/
theorem replay_reproduces_live (P : Profile) (config : RiskConfig) {cmds : List Command}
    (hcmds : ∀ c ∈ cmds, c.Decodable) :
    ∃ r, recording cmds = .ok r ∧ ∀ bytes, bytes <+: r →
      ∃ k, WhollyIn cmds bytes k ∧ ∀ s evss, (System.new config).runFrom P (cmds.take k) = .ok (s, evss) →
        ∃ out, replayFile P bytes config = .ok (.ok out) ∧ out.Reproduces s evss := by
  refine ⟨_, Matching.recording_eq cmds, fun bytes hb => ?_⟩
  obtain ⟨k, hk, hdecode, hin, hmax⟩ := decodeRecording_prefix hcmds hb
  refine ⟨k, ⟨hk, ⟨_, Matching.recording_eq _, hin⟩, fun j r hj hr hpre => ?_⟩, fun s evss hrun => ?_⟩
  · rw [Matching.recording_eq] at hr
    exact hmax j hj (Except.ok.inj hr ▸ hpre)
  · obtain ⟨hreports, hmarket, hnum⟩ := Streams.foldl_emit evss.flatten ⟨[], [], 0, 0⟩
    obtain ⟨hseqs, hmdseqs⟩ := hnum ⟨rfl, rfl⟩
    refine ⟨_, by unfold replayFile; rw [hdecode]; simp only [bind, Except.bind, hrun, pure, Except.pure]; rfl,
      hreports, hmarket, ?_, ?_, rfl⟩
    · have hlen := congrArg List.length hseqs
      rw [List.length_map, List.length_range'] at hlen
      rw [hseqs, hlen]
    · have hlen := congrArg List.length hmdseqs
      rw [List.length_map, List.length_range'] at hlen
      rw [hmdseqs, hlen]

/-- Two orders that trade, recorded: the live run does not panic. -/
theorem replay_reproduces_live_trade :
    (∃ s evss, (System.new .default).runFrom .release
      [.newOrder 1 1 .sell 100 5 .limit .gtc 0, .newOrder 2 1 .buy 100 3 .limit .gtc 0] = .ok (s, evss)) ∧
    ∃ r, recording [.newOrder 1 1 .sell 100 5 .limit .gtc 0, .newOrder 2 1 .buy 100 3 .limit .gtc 0] = .ok r ∧
      ∀ bytes, bytes <+: r → ∃ k, WhollyIn
        [.newOrder 1 1 .sell 100 5 .limit .gtc 0, .newOrder 2 1 .buy 100 3 .limit .gtc 0] bytes k ∧
        ∀ s evss, (System.new .default).runFrom .release
            (List.take k [.newOrder 1 1 .sell 100 5 .limit .gtc 0, .newOrder 2 1 .buy 100 3 .limit .gtc 0]) =
              .ok (s, evss) →
          ∃ out, replayFile .release bytes .default = .ok (.ok out) ∧ out.Reproduces s evss := by
  refine ⟨?_, replay_reproduces_live .release .default (by decide)⟩
  obtain ⟨⟨s, evss⟩, hrun⟩ := exists_of_isOk (x := (System.new .default).runFrom .release
    [.newOrder 1 1 .sell 100 5 .limit .gtc 0, .newOrder 2 1 .buy 100 3 .limit .gtc 0]) (by decide +kernel)
  exact ⟨s, evss, hrun⟩

end MatchingEngine
