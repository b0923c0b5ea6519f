import MatchingEngine.Main.AtRest
import MatchingEngine.Main.Recording

/-!
# The recording of live traffic

What reached the disk of a daemon's recording, at whatever moment the daemon stops, is a beginning
of what its recorder was given. Replaying it gives back what the clients were sent
(`recording_replays_traffic`): the reports of the commands it holds whole, those with the numbers
`1, …, n`, in the order the return channel carried them, whichever threads ran when; and with them
a beginning of the market data.

A command is recorded before it is processed. If processing it panics, the matching thread is gone
and the command is in the file all the same: any part of the file that ends before it replays as
above, and the whole file panics where the daemon did.

* `numbered_upTo`: a run's first `n` turns are told by the numbers.
* `Linearized.sent_upTo`: so are the items sent for them.
* `Linearized.replayed`: a beginning that holds `n` commands whole, replayed.
-/

namespace MatchingEngine

open Replay

/-- The items of the first turns are those with small numbers. -/
theorem numbered_upTo {α β : Type*} {f : α → List β} {number : β → ℕ} {l₁ l₂ : List α}
    (h : ∀ j a, (l₁ ++ l₂)[j]? = some a → ∀ x ∈ f a, number x = j + 1) :
    ((l₁ ++ l₂).flatMap f).filter (fun x => number x ≤ l₁.length) = l₁.flatMap f := by
  have hkeep : (l₁.flatMap f).filter (fun x => number x ≤ l₁.length) = l₁.flatMap f := by
    refine List.filter_eq_self.2 fun x hx => ?_
    obtain ⟨a, ha, hx⟩ := List.mem_flatMap.1 hx
    obtain ⟨j, hj⟩ := List.mem_iff_getElem?.1 ha
    obtain ⟨hlt, -⟩ := List.getElem?_eq_some_iff.1 hj
    have hnum := h j a (by rw [List.getElem?_append_left hlt, hj]) x hx
    simp only [decide_eq_true_eq]
    omega
  have hdrop : (l₂.flatMap f).filter (fun x => number x ≤ l₁.length) = [] := by
    refine List.filter_eq_nil_iff.2 fun x hx => ?_
    obtain ⟨a, ha, hx⟩ := List.mem_flatMap.1 hx
    obtain ⟨j, hj⟩ := List.mem_iff_getElem?.1 ha
    have hnum := h (l₁.length + j) a
      (by rw [List.getElem?_append_right (Nat.le_add_right _ _), Nat.add_sub_cancel_left, hj]) x hx
    simp only [decide_eq_true_eq]
    omega
  rw [List.flatMap_append, List.filter_append, hkeep, hdrop, List.append_nil]

namespace Daemon

variable {k : ChannelCapacities} {P : Profile} {config : RiskConfig} {recorder : Option (List UInt8)} {d : Daemon k}
  {os : List Obs} {final : Matching}

/-- What the first commands taken send back, told by the numbers among everything sent. -/
theorem Linearized.sent_upTo {outs₁ outs₂ : List Dispatched}
    (h : Linearized P config recorder d os final (outs₁ ++ outs₂)) :
    (d.sentItems os).filter (fun x => x.2.1 ≠ wireLevelRejectEngineSeq ∧ x.2.1 ≤ outs₁.length) =
      MatchingThread.returned outs₁ := by
  have hnum : ∀ j out, (outs₁ ++ outs₂)[j]? = some out → ∀ x ∈ out.returns, x.2.1 = j + 1 := by
    intro j out hj x hx
    have hnum : x.2.1 = 0 + j + 1 := MatchingThread.run_numbers h.run hj x hx
    omega
  -- the numbers start at one
  have hne : ∀ x ∈ MatchingThread.returned d.toSend, x.2.1 ≠ wireLevelRejectEngineSeq := by
    intro x hx
    have hmem : x ∈ MatchingThread.returned (outs₁ ++ outs₂) := by
      rw [h.returns]
      exact List.mem_append_right _ hx
    obtain ⟨out, hout, hx⟩ := List.mem_flatMap.1 hmem
    obtain ⟨j, hj⟩ := List.mem_iff_getElem?.1 hout
    rw [hnum j out hj x hx]
    exact Nat.succ_ne_zero j
  have hall : (d.sentItems os).filter (fun x => x.2.1 ≠ wireLevelRejectEngineSeq) =
      MatchingThread.returned (outs₁ ++ outs₂) := by
    unfold sentItems
    rw [List.filter_append, h.returns, List.filter_eq_self.2 fun x hx => decide_eq_true (hne x hx)]
  have hcut : (MatchingThread.returned (outs₁ ++ outs₂)).filter (fun x => x.2.1 ≤ outs₁.length) =
      MatchingThread.returned outs₁ := numbered_upTo hnum
  rw [← hcut, ← hall, List.filter_filter]
  refine List.filter_congr fun x _ => ?_
  rw [← Bool.decide_and]
  exact decide_eq_decide.2 And.comm

end Daemon

/-- Replay gives the streams of the run it makes of the recording's commands. -/
theorem Replay.replayFile_of_run {P : Profile} {bytes : List UInt8} {config : RiskConfig} {cmds : List Command}
    {s : System} {evss : List (List (ℕ × Event))} (hdecode : decodeRecording bytes = .ok (.ok cmds))
    (hrun : (System.new config).runFrom P cmds = .ok (s, evss)) :
    ∃ out, replayFile P bytes config = .ok (.ok out) ∧
      out.executionReports.map Prod.snd = evss.flatten.filter (fun e => !e.2.isMarketData) ∧
      out.marketData.map Prod.snd = (evss.flatten.filter (fun e => e.2.isMarketData)).map Prod.snd ∧
      out.lastTrade = s.engine.book.lastTrade := by
  obtain ⟨hreports, hmarket, -⟩ := Streams.foldl_emit evss.flatten ⟨[], [], 0, 0⟩
  unfold replayFile
  rw [bind_of_ok hdecode]
  simp only [hrun, bind, Except.bind, pure, Except.pure]
  exact ⟨_, rfl, hreports, hmarket, rfl⟩

/-- Replay of a recording whose last command panics. -/
theorem Replay.replayFile_of_panic {P : Profile} {bytes : List UInt8} {config : RiskConfig} {cmds : List Command}
    {cmd : Command} {s : System} {evss : List (List (ℕ × Event))} {p : Panic}
    (hdecode : decodeRecording bytes = .ok (.ok (cmds ++ [cmd])))
    (hrun : (System.new config).runFrom P cmds = .ok (s, evss)) (hpanic : s.processCommand P cmd = .error p) :
    replayFile P bytes config = .error p := by
  have herr : (System.new config).runFrom P (cmds ++ [cmd]) = .error p := by
    refine run_append_error hrun ?_
    unfold run
    exact bind_of_error hpanic
  unfold replayFile
  rw [bind_of_ok hdecode]
  simp only [herr, bind, Except.bind]

/-- The same in bytes. -/
theorem WhollyIn.of_bytes {cmds : List Command} {bytes : List UInt8} {k : ℕ} (hk : k ≤ cmds.length)
    (hin : ((cmds.take k).map commandBytes).flatten <+: bytes)
    (hmax : ∀ j ≤ cmds.length, ((cmds.take j).map commandBytes).flatten <+: bytes → j ≤ k) : WhollyIn cmds bytes k := by
  refine ⟨hk, ⟨_, Matching.recording_eq _, hin⟩, fun j r hj hr hpre => ?_⟩
  rw [Matching.recording_eq] at hr
  exact hmax j hj (Except.ok.inj hr ▸ hpre)

namespace Daemon

variable {k : ChannelCapacities} {P : Profile} {config : RiskConfig} {recorder : Option (List UInt8)} {d : Daemon k}
  {os : List Obs} {final : Matching}

/-- Replay of `onDisk`, in which `n` of the commands taken are whole, against the daemon: the reports are those
sent, or still to be sent, under the first `n` numbers, in the same order; the market data is a beginning of what was
offered. With all commands whole it is all of both, and the last trade. -/
structure Replayed (P : Profile) (config : RiskConfig) (d : Daemon k) (os : List Obs) (onDisk : List UInt8) (n : ℕ)
    (out : ReplayOutput) : Prop where
  whole : WhollyIn ((takenCommands os).map Prod.snd) onDisk n
  replays : replayFile P onDisk config = .ok (.ok out)
  reports : out.executionReports.map Prod.snd =
    ((d.sentItems os).filter (fun x => x.2.1 ≠ wireLevelRejectEngineSeq ∧ x.2.1 ≤ n)).map Prod.snd
  marketData : out.marketData.map Prod.snd <+: d.feed.emitted ++ MatchingThread.offered d.toSend
  all : n = (takenCommands os).length → out.marketData.map Prod.snd = d.feed.emitted ++ MatchingThread.offered d.toSend ∧
    out.lastTrade = d.matching.matching.system.engine.book.lastTrade

/-- **What holds `n` of the commands taken whole replays as they went.** -/
theorem Linearized.replayed {outs : List Dispatched} (h : Linearized P config recorder d os final outs)
    {onDisk : List UInt8} {n : ℕ} (hwhole : WhollyIn ((takenCommands os).map Prod.snd) onDisk n)
    (hdecode : decodeRecording onDisk = .ok (.ok (((takenCommands os).map Prod.snd).take n))) :
    ∃ out, Replayed P config d os onDisk n out := by
  have hn : n ≤ (takenCommands os).length := by
    rw [← List.length_map (f := Prod.snd)]
    exact hwhole.1
  -- the run of the first `n` commands
  have htake := h.run
  rw [← List.take_append_drop n (takenCommands os)] at htake
  obtain ⟨t, outs₁, outs₂, h1, h2, rfl⟩ := run_append_inv htake
  have hlen : outs₁.length = n := by
    rw [run_length h1, List.length_take]
    omega
  obtain ⟨evss, hsys, hret, hmd⟩ := MatchingThread.run_system h1
  rw [List.map_take] at hsys
  obtain ⟨out, hreplay, hreports, hmarket, hlast⟩ := Replay.replayFile_of_run hdecode hsys
  have hsent := h.sent_upTo
  rw [hlen] at hsent
  have hoffered := h.marketData
  rw [MatchingThread.offered_append] at hoffered
  refine ⟨out, hwhole, hreplay, ?_, ?_, fun hall => ?_⟩
  · rw [hreports, hsent, hret]
  · rw [hmarket, ← hmd, ← hoffered]
    exact List.prefix_append _ _
  · -- no command is left out
    have hnil : outs₂ = [] := by
      rw [← List.length_eq_zero_iff, run_length h2, List.length_drop]
      omega
    subst hnil
    refine ⟨?_, ?_⟩
    · rw [hmarket, ← hmd, ← hoffered]
      simp [MatchingThread.offered]
    · rw [List.drop_eq_nil_of_le (Nat.le_of_eq hall.symm)] at h2
      obtain ⟨rfl, -⟩ := Prod.mk.inj (Except.ok.inj h2)
      rw [hlast, h.system]

/-- The matching thread is between two commands, and processing the next one panics. -/
def Fatal (P : Profile) (d : Daemon k) (cmd : Command) (p : Panic) : Prop :=
  d.matching.pending = [] ∧ (∃ c rest, d.commands.items = (c, cmd) :: rest) ∧
    d.matching.matching.system.processCommand P cmd = .error p

theorem Fatal.take {cmd : Command} {p : Panic} (h : d.Fatal P cmd p) : d.step P .take = .error (.panicked p) := by
  obtain ⟨hnil, ⟨c, rest, hitems⟩, hpanic⟩ := h
  have hne : d.commands.items ≠ [] := by
    rw [hitems]
    exact List.cons_ne_nil _ _
  obtain ⟨x, commands, hrecv⟩ := Chan.recv_of_ne_nil hne
  have hhead : x = (c, cmd) := by
    have heq := Chan.recv_eq_some hrecv
    rw [hitems] at heq
    exact (List.cons.inj heq).1.symm
  subst hhead
  simp only [step, hrecv, orWait, MatchingThread.step, hnil, MatchingThread.take, Matching.record_eq, hpanic, orPanic,
    bind, Except.bind]

end Daemon

/-- **A recording replays the traffic it was taken from**, under every interleaving, and however much of it reached
the disk, fewer than `2 ^ 64` commands having been taken: the reports replay makes are those the daemon sent, or is
still to send, under the numbers of the commands that are whole in it, in the same order; the market data is a
beginning of what was offered. Of all of the recording, it is all of both, and the last trade. If the next command
panics, it is recorded first: what ends before it replays as said, and the whole file panics as the daemon does. -/
theorem recording_replays_traffic (P : Profile) (k : ChannelCapacities) (config : RiskConfig) {acts : List DaemonAct}
    {d : Daemon k} {os : List Obs} (hrun : run (Daemon.step P) (.start k config (some [])) acts = .ok (d, os))
    (hfew : (takenCommands os).length < 2 ^ 64) :
    ∃ bytes, d.matching.matching.recorder = some bytes ∧ (∀ x ∈ d.sentItems os, x.2.1 < 2 ^ 64) ∧
      (∀ onDisk, onDisk <+: bytes → ∃ n out, d.Replayed P config os onDisk n out ∧
        (onDisk = bytes → n = (takenCommands os).length)) ∧
      ∀ cmd p, d.Fatal P cmd p → d.step P .take = .error (.panicked p) ∧
        ∃ file, MatchingEngine.record (some bytes) cmd = .ok (some file) ∧ replayFile P file config = .error p ∧
          ∀ onDisk, onDisk <+: file → onDisk ≠ file → ∃ n out, d.Replayed P config os onDisk n out := by
  obtain ⟨final, outs, hlin⟩ := Daemon.linearized hrun
  obtain ⟨bytes, hbytes, hrec⟩ := Matching.run_recorder hlin.run
  rw [Matching.recording_eq] at hbytes
  obtain rfl := Except.ok.inj hbytes
  have hcmds : ∀ c ∈ (takenCommands os).map Prod.snd, c.Decodable := by
    rw [List.forall_mem_map]
    exact fun x hx => hlin.decodable x (List.mem_append_left _ hx)
  refine ⟨_, by rw [← hlin.recorder, hrec], hlin.numbers_lt hfew, fun onDisk hdisk => ?_, fun cmd p hfatal => ⟨hfatal.take, ?_⟩⟩
  · obtain ⟨n, hn, hdecode, hin, hmax⟩ := decodeRecording_prefix hcmds hdisk
    obtain ⟨out, hout⟩ := hlin.replayed (WhollyIn.of_bytes hn hin hmax) hdecode
    refine ⟨n, out, hout, fun hall => ?_⟩
    rw [List.length_map] at hn
    refine Nat.le_antisymm hn ?_
    rw [← List.length_map (f := Prod.snd)]
    refine hmax _ (Nat.le_refl _) ?_
    rw [List.take_length, hall]
  · obtain ⟨-, ⟨c, rest, hitems⟩, hpanic⟩ := hfatal
    -- the file holds one command more than were taken
    have hmore : ∀ c ∈ (takenCommands os).map Prod.snd ++ [cmd], c.Decodable := by
      refine List.forall_mem_append.2 ⟨hcmds, List.forall_mem_singleton.2 ?_⟩
      exact hlin.decodable (c, cmd) (List.mem_append_right _ (by rw [hitems]; exact List.mem_cons_self))
    have hfile : (((takenCommands os).map Prod.snd ++ [cmd]).map commandBytes).flatten =
        (((takenCommands os).map Prod.snd).map commandBytes).flatten ++ commandBytes cmd := by
      rw [List.map_append, List.flatten_append]
      simp
    refine ⟨(((takenCommands os).map Prod.snd ++ [cmd]).map commandBytes).flatten, ?_, ?_, fun onDisk hdisk hne => ?_⟩
    · rw [Matching.record_eq, hfile]
      rfl
    · obtain ⟨n, hn, hdecode, -, hmax⟩ := decodeRecording_prefix hmore (List.prefix_refl _)
      have hall : n = ((takenCommands os).map Prod.snd ++ [cmd]).length :=
        Nat.le_antisymm hn (hmax _ (Nat.le_refl _) (by rw [List.take_length]))
      rw [hall, List.take_length] at hdecode
      obtain ⟨evss, hsys, -, -⟩ := MatchingThread.run_system hlin.run
      exact Replay.replayFile_of_panic hdecode hsys (by rw [hlin.system]; exact hpanic)
    · obtain ⟨n, hn, hdecode, hin, hmax⟩ := decodeRecording_prefix hmore hdisk
      -- not all of it is on disk, so the last command is not whole
      have hlt : n < ((takenCommands os).map Prod.snd ++ [cmd]).length := by
        refine Nat.lt_of_le_of_ne hn fun hall => hne ?_
        rw [hall, List.take_length] at hin
        exact hdisk.eq_of_length (Nat.le_antisymm hdisk.length_le hin.length_le)
      rw [List.length_append, List.length_singleton] at hlt
      have htake : ∀ j ≤ ((takenCommands os).map Prod.snd).length,
          ((takenCommands os).map Prod.snd ++ [cmd]).take j = ((takenCommands os).map Prod.snd).take j :=
        fun j hj => List.take_append_of_le_length hj
      have hn' := Nat.le_of_lt_succ hlt
      rw [htake n hn'] at hdecode hin
      obtain ⟨out, hout⟩ := hlin.replayed (WhollyIn.of_bytes hn' hin fun j hj hpre =>
        hmax j (by rw [List.length_append]; omega) (by rwa [htake j hj])) hdecode
      exact ⟨n, out, hout⟩

/-- An order is amended to price zero, and a snapshot is on its way to the matching thread. -/
def beforeCrash : List DaemonAct :=
  [.accept true, .read 1 (commandBytes (.newOrder 1 1 .sell 100 5 .limit .gtc 0) ++
    commandBytes (.cancelReplace 1 1 0 1) ++ commandBytes .snapshot),
   .drain 1, .drain 1, .drain 1, .take, .emit, .emit, .take, .emit, .emit]

/-- What was recorded of it, with the snapshot that panics. -/
theorem recording_replays_traffic_crash :
    ∃ d os, run (Daemon.step .release) (.start .default .default (some [])) beforeCrash = .ok (d, os) ∧
      (takenCommands os).length < 2 ^ 64 ∧ d.Fatal .release .snapshot Sim.zeroPricePanic ∧
      ∃ bytes, d.matching.matching.recorder = some bytes ∧ (∀ x ∈ d.sentItems os, x.2.1 < 2 ^ 64) ∧
        (∀ onDisk, onDisk <+: bytes → ∃ n out, d.Replayed .release .default os onDisk n out ∧
          (onDisk = bytes → n = (takenCommands os).length)) ∧
        ∀ cmd p, d.Fatal .release cmd p → d.step .release .take = .error (.panicked p) ∧
          ∃ file, MatchingEngine.record (some bytes) cmd = .ok (some file) ∧ replayFile .release file .default = .error p ∧
            ∀ onDisk, onDisk <+: file → onDisk ≠ file → ∃ n out, d.Replayed .release .default os onDisk n out := by
  obtain ⟨⟨d, os⟩, hrun, hfew, hnil, hitems, hpanic⟩ := exists_ok_of_decide
    (x := run (Daemon.step .release) (.start .default .default (some [])) beforeCrash)
    (p := fun r => (takenCommands r.2).length < 2 ^ 64 ∧ r.1.matching.pending = [] ∧
      r.1.commands.items = [(1, .snapshot)] ∧ (r.1.matching.matching.system.processCommand .release .snapshot).map
        (fun _ => ()) = .error Sim.zeroPricePanic) (by decide +kernel)
  exact ⟨d, os, hrun, hfew, ⟨hnil, ⟨1, [], hitems⟩, error_of_map hpanic⟩,
    recording_replays_traffic .release .default .default hrun hfew⟩

end MatchingEngine
