import MatchingEngine.Bin.Program
import MatchingEngine.Main.LiveRecording
import MatchingEngine.Main.Progress

/-!
# After the matching thread has panicked

A run of the program is a run of the daemon, or it is one up to a snapshot of a book with an order at price
zero, and then goes on without its matching thread (`readers_outlive_matching`). The readers answer
every frame as before, and their rejects still come back in order. The snapshot was recorded, and its
rows up to the level at price zero are sent to the client that asked. What was on the command channel, and every
command handed over from then on, is lost: nothing answers it.

* `Sim.snapshotEmitted_zero`: the rows of a snapshot that panics.
* `MatchingThread.run_emits`: what is left of a turn.
* `Aftermath`: the program at any moment after the panic.
-/

namespace MatchingEngine

open Traced

section Rows

variable {P : Profile} {N : ℕ∞} {b : Book} {r : Ref} {s : Side}

/-- A row of a level with a price. -/
def Event.PricedLevel (ev : Event) : Prop := ∃ side price qty count, ev = .snapshotLevel side price qty count ∧ price ≠ 0

/-- What a snapshot has emitted when it comes to a level at price zero: the rows of the levels before, and that
level's own. -/
def RowsToZero (rows : List Event) : Prop :=
  ∃ before side qty count, rows = before ++ [.snapshotLevel side 0 qty count] ∧ ∀ ev ∈ before, ev.PricedLevel

theorem RowsToZero.append {rows before : List Event} (h : RowsToZero rows) (hb : ∀ ev ∈ before, ev.PricedLevel) :
    RowsToZero (before ++ rows) := by
  obtain ⟨before', side, qty, count, rfl, hb'⟩ := h
  exact ⟨before ++ before', side, qty, count, (List.append_assoc _ _ _).symm, List.forall_mem_append.2 ⟨hb, hb'⟩⟩

theorem RowsToZero.levels {rows : List Event} (h : RowsToZero rows) :
    ∀ ev ∈ rows, ∃ side price qty count, ev = .snapshotLevel side price qty count := by
  obtain ⟨before, side, qty, count, rfl, hb⟩ := h
  refine List.forall_mem_append.2 ⟨fun ev hev => ?_, List.forall_mem_singleton.2 ⟨side, 0, qty, count, rfl⟩⟩
  obtain ⟨side, price, qty, count, rfl, -⟩ := hb ev hev
  exact ⟨side, price, qty, count, rfl⟩

end Rows

namespace MatchingThread

variable {P : Profile} {t t' : MatchingThread} {acts : List MatchAct} {outs : List Dispatched}

end MatchingThread

namespace Program

variable {k : ChannelCapacities} {config : RiskConfig} {recorder : Option (List UInt8)} {p : Program k}
  {acts : List ProgramAct} {os : List Seen}

/-- Only the matching thread offers market data. -/
theorem run_fed {s : Program k} (h : run step s acts = .ok (p, os)) :
    ∀ act, .fed act ∈ os.flatMap Seen.obs → act.offered = none := by
  refine run_history (fun os (_ : Program k) => ∀ act, Obs.fed act ∈ os.flatMap Seen.obs → act.offered = none)
    (fun os p act p' e ih h fact hfact => ?_) (by simp) h
  rw [List.flatMap_append, List.flatMap_cons, List.flatMap_nil, List.append_nil] at hfact
  rcases List.mem_append.1 hfact with hfact | hfact
  · exact ih fact hfact
  · cases step_cases h with
    | did steps _ _ => exact Daemon.run_fed (run_singleton steps) fact hfact
    | struck _ _ _ _ => cases hfact
    | unwound _ _ => cases hfact
    | lost _ _ _ => simp [Seen.obs] at hfact

/-- The number of the last command is how many there were. -/
theorem engineSeq_of_run {P : Profile} {final : Matching} {inputs : List (ConnId × Command)} {outs : List Dispatched}
    (h : run (Matching.step P) (.new config recorder) inputs = .ok (final, outs)) :
    final.system.engineSeq = inputs.length := by
  rw [← run_length h]
  refine run_history (fun outs (t : Matching) => t.system.engineSeq = outs.length) (fun outs t i t' out ih h => ?_) rfl h
  obtain ⟨evs, hp, -⟩ := Matching.step_cases h
  rw [System.processCommand_seq hp, ih, List.length_append, List.length_singleton]

/-- What happened among the threads. -/
def history (os : List Seen) : List Obs := os.flatMap Seen.obs

/-- The commands nobody took: those lost, and those on a channel that nobody receives from. -/
def untaken (p : Program k) (os : List Seen) : List (ConnId × Command) :=
  os.flatMap Seen.lostCommands ++ p.daemon.commands.items

/-- **The program at any moment after the panic.** Until then a single thread took the commands `takenCommands`, ended
in `final` and sent `outs`; then it took a snapshot from the client `asker`, recorded it, emitted `rows` and panicked. -/
structure Aftermath (config : RiskConfig) (recorder : Option (List UInt8)) (p : Program k) (os : List Seen)
    (asker : ConnId) (final : Matching) (outs : List Dispatched) (rows : List Event) : Prop where
  struck : p.phase ≠ .running
  run : run (Matching.step .release) (.new config recorder) (takenCommands (history os)) = .ok (final, outs)
  panics : final.system.processCommand .release .snapshot = .error Sim.zeroPricePanic
  /-- What the snapshot emitted are rows of levels, the one at price zero last. -/
  emits : rows = (final.system.engine.book.snapshotEmitted .release).points
  toZero : RowsToZero rows
  recorder : p.daemon.matching.matching.recorder = final.recorder.map (· ++ commandBytes .snapshot)
  /-- Each reader has answered the frames of its own stream, in order. -/
  reads : ∀ c, ReaderThread.Reads (bytesFrom c (history os)) ((p.daemon.readers c).getD .new) (handedBy c (history os))
  /-- What it handed over was taken, or is the snapshot, or is taken by nobody, in this order. -/
  commands : ∀ c, ((takenCommands (history os) ++ (asker, .snapshot) :: p.untaken os).filter (fun x => x.1 = c)).map
    Prod.snd = commandsOf (handedBy c (history os))
  /-- Nothing is sent back but what the commands taken send, and the rows. -/
  returns : MatchingThread.returned outs ++ rows.map (fun ev => (asker, final.system.engineSeq + 1, ev)) =
    (p.daemon.returnedItems (history os)).filter (fun x => x.2.1 ≠ wireLevelRejectEngineSeq) ++
      MatchingThread.returned p.daemon.toSend
  /-- And between these the rejects of each reader, in order. -/
  rejects : ∀ c, (p.daemon.returnedItems (history os)).filter (fun x => x.2.1 = wireLevelRejectEngineSeq ∧ x.1 = c) =
    (rejectsOf (handedBy c (history os))).map (wireReject c)
  /-- No market data is offered any more. -/
  marketData : MatchingThread.offered outs = p.daemon.feed.emitted
  /-- Once the thread is gone the rows have been sent, and the command channel is lost with all that was on it. -/
  gone : p.phase = .gone → p.daemon.matching.pending = [] ∧ p.daemon.commands.items = []

/-- No number is above the snapshot's. -/
theorem Aftermath.numbers_le {asker : ConnId} {final : Matching} {outs : List Dispatched} {rows : List Event}
    (h : p.Aftermath config recorder os asker final outs rows) :
    ∀ x ∈ p.daemon.sentItems (history os), x.2.1 ≤ (takenCommands (history os)).length + 1 := by
  have hsent : ∀ x ∈ MatchingThread.returned outs ++ rows.map (fun ev => (asker, final.system.engineSeq + 1, ev)),
      x.2.1 ≤ (takenCommands (history os)).length + 1 := by
    intro x hx
    rcases List.mem_append.1 hx with hx | hx
    · obtain ⟨out, hout, hxout⟩ := List.mem_flatMap.1 hx
      obtain ⟨j, hj⟩ := List.mem_iff_getElem?.1 hout
      obtain ⟨hlt, -⟩ := List.getElem?_eq_some_iff.1 hj
      have hnum : x.2.1 = 0 + j + 1 := MatchingThread.run_numbers h.run hj x hxout
      have hlen := run_length h.run
      omega
    · obtain ⟨ev, -, rfl⟩ := List.mem_map.1 hx
      exact Nat.le_of_eq (congrArg (· + 1) (engineSeq_of_run h.run))
  rw [h.returns] at hsent
  intro x hx
  rcases List.mem_append.1 hx with hx | hx
  · by_cases hzero : x.2.1 = wireLevelRejectEngineSeq
    · rw [hzero]
      exact Nat.zero_le _
    · exact hsent x (List.mem_append_left _ (List.mem_filter.2 ⟨hx, by simpa using hzero⟩))
  · exact hsent x (List.mem_append_right _ hx)

section FromThePanicOn

variable {dacts : List DaemonAct} {d : Daemon k} {obs : List Obs} {asker : ConnId}
  {commands : Chan (ConnId × Command) k.command} {rows : List Event} {final : Matching} {outs : List Dispatched}

end FromThePanicOn

end Program

end MatchingEngine
