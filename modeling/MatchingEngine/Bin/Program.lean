import MatchingEngine.Bin.Daemon
import MatchingEngine.Core.Emission

/-!
# The program, also after its matching thread has panicked

`Daemon` goes as far as the first panic of the matching thread. The program goes on. The command that
panics has been taken and recorded, and the events it emits before are sent; then the thread unwinds
and its ends of the channels are closed. What is on the command channel is lost with it, and so is
every command a reader sends from then on: `let _ = command_tx.send(..)`. The other threads do not
notice.

Built in release, as it runs: there the command that panics is a snapshot.

* `Program.step_cases`: what one step does.
* `Program.run_split`: a run of the program is a run of the daemon, or one up to the panic and
  what follows it.
-/

namespace MatchingEngine

/-- Where the matching thread is. -/
inductive Phase
  /-- It takes commands. -/
  | running
  /-- It is in the command it will panic in. -/
  | panicking
  /-- It is gone. -/
  | gone
  deriving DecidableEq

/-- The threads, and whether the matching thread is among them. -/
structure Program (k : ChannelCapacities) where
  daemon : Daemon k
  phase : Phase

inductive ProgramAct
  /-- A thread takes a step. -/
  | thread (act : DaemonAct)
  /-- The matching thread unwinds. -/
  | unwind
  deriving DecidableEq

/-- What happened. -/
inductive Seen
  /-- What happens in a daemon. -/
  | did (o : Obs)
  /-- The matching thread takes the command it will panic in. -/
  | struck (connId : ConnId) (cmd : Command)
  /-- It is gone, and the commands on its channel with it. -/
  | unwound (lost : List (ConnId × Command))
  /-- A reader sends a command to nobody. -/
  | lost (connId : ConnId) (cmd : Command)

/-- What a command has emitted when it panics. -/
def System.emittedBefore (s : System) : Command → List (ℕ × Event)
  | .snapshot => (s.engine.book.snapshotEmitted .release).points.map (fun ev => (s.engineSeq + 1, ev))
  -- no other command panics
  | _ => []

/-- The beginning of a turn that will panic: the command is recorded, and what it emits before is to be sent.
Nobody sees the engine after this. -/
def MatchingThread.strike (t : MatchingThread) (connId : ConnId) (cmd : Command) : Except Panic MatchingThread := do
  let recorder ← record t.matching.recorder cmd
  pure ⟨{ t.matching with recorder := recorder }, connId, commandSelfId cmd, t.matching.system.emittedBefore cmd⟩

namespace Program

variable {k : ChannelCapacities}

def start (k : ChannelCapacities) (config : RiskConfig) (recorder : Option (List UInt8)) : Program k :=
  ⟨.start k config recorder, .running⟩

/-- A step of a thread as in the daemon. -/
def stepDaemon (p : Program k) (act : DaemonAct) : Except Stop (Program k × Seen) := do
  let (d, o) ← p.daemon.step .release act
  pure (⟨d, p.phase⟩, .did o)

/-- The matching thread takes the command it will panic in. -/
def strike (p : Program k) : Except Stop (Program k × Seen) := do
  let ((connId, cmd), commands) ← orWait p.daemon.commands.recv
  let matching ← orPanic (p.daemon.matching.strike connId cmd)
  pure (⟨{ p.daemon with commands := commands, matching := matching }, .panicking⟩, .struck connId cmd)

/-- A turn of the loop of `drain_frames` when nobody receives commands any more. -/
def drainAlone (p : Program k) (connId : ConnId) : Except Stop (Program k × Seen) := do
  let reader ← orWait (p.daemon.readers connId)
  let (reader, handed) ← orBlock (reader.step .turn)
  match handed with
  | some (.ok cmd) =>
    -- the send returns an error, which is ignored
    pure (⟨{ p.daemon with readers := Function.update p.daemon.readers connId (some reader) }, p.phase⟩,
      .lost connId cmd)
  | _ => p.stepDaemon (.drain connId)

/-- One step. -/
def step (p : Program k) : ProgramAct → Except Stop (Program k × Seen)
  | .thread .take =>
    match p.phase with
    | .running =>
      match p.daemon.step .release .take with
      | .error (.panicked _) => p.strike
      | _ => p.stepDaemon .take
    | _ => .error .blocked
  | .thread (.drain connId) =>
    match p.phase with
    | .gone => p.drainAlone connId
    | _ => p.stepDaemon (.drain connId)
  | .thread act => p.stepDaemon act
  | .unwind =>
    match p.phase, p.daemon.matching.pending with
    | .panicking, [] => .ok (⟨{ p.daemon with commands := .empty }, .gone⟩, .unwound p.daemon.commands.items)
    | _, _ => .error .blocked

end Program

/-- What happened among the threads; a command sent to nobody was handed over all the same. -/
def Seen.obs : Seen → List Obs
  | .did o => [o]
  | .lost connId cmd => [.turned connId (some (.ok cmd))]
  | _ => []

/-- The commands nobody took. -/
def Seen.lostCommands : Seen → List (ConnId × Command)
  | .unwound commands => commands
  | .lost connId cmd => [(connId, cmd)]
  | _ => []

namespace Program

variable {k : ChannelCapacities} {p p' : Program k} {act : ProgramAct} {acts : List ProgramAct} {e : Seen}
  {os : List Seen}

/-- **What one step does.** -/
inductive Stepped (p : Program k) : Program k → Seen → Prop
  | did {act d o} (steps : p.daemon.step .release act = .ok (d, o)) (takes : p.phase ≠ .running → act ≠ .take)
    (hands : p.phase = .gone → o.handedCommand = []) : Stepped p ⟨d, p.phase⟩ (.did o)
  | struck {connId cmd commands matching q} (running : p.phase = .running)
    (panics : p.daemon.step .release .take = .error (.panicked q))
    (recvs : p.daemon.commands.recv = some ((connId, cmd), commands))
    (strikes : p.daemon.matching.strike connId cmd = .ok matching) :
    Stepped p ⟨{ p.daemon with commands := commands, matching := matching }, .panicking⟩ (.struck connId cmd)
  | unwound (panicking : p.phase = .panicking) (sent : p.daemon.matching.pending = []) :
    Stepped p ⟨{ p.daemon with commands := .empty }, .gone⟩ (.unwound p.daemon.commands.items)
  | lost {connId reader reader' cmd} (gone : p.phase = .gone) (here : p.daemon.readers connId = some reader)
    (turns : reader.step .turn = .ok (reader', some (.ok cmd))) :
    Stepped p ⟨{ p.daemon with readers := Function.update p.daemon.readers connId (some reader') }, p.phase⟩
      (.lost connId cmd)

theorem stepDaemon_ok {dact : DaemonAct} (h : p.stepDaemon dact = .ok (p', e)) :
    ∃ d o, p.daemon.step .release dact = .ok (d, o) ∧ p' = ⟨d, p.phase⟩ ∧ e = .did o := by
  obtain ⟨⟨d, o⟩, hd, h⟩ := exists_of_bind_ok h
  obtain ⟨rfl, rfl⟩ := Prod.mk.inj (Except.ok.inj h)
  exact ⟨d, o, hd, rfl, rfl⟩

/-- Only a turn of a reader hands a command over. -/
theorem handedCommand_eq_nil {d d' : Daemon k} {dact : DaemonAct} {o : Obs} (h : d.step .release dact = .ok (d', o))
    (hno : ∀ c, dact ≠ .drain c) : o.handedCommand = [] := by
  cases Daemon.step_cases h with
  | command _ _ _ => exact absurd rfl (hno _)
  | turned _ _ => exact absurd rfl (hno _)
  | reject _ _ _ => exact absurd rfl (hno _)
  | _ => rfl

/-- What happens in a turn of a reader. -/
theorem obs_of_turn {d d' : Daemon k} {c : ConnId} {o : Obs} {reader reader' : ReaderThread}
    {handed : Option (Except RejectReason Command)} (h : d.step .release (.drain c) = .ok (d', o))
    (here : d.readers c = some reader) (turns : reader.step .turn = .ok (reader', handed)) : o = .turned c handed := by
  have hsame : ∀ {reader₁ reader₁' : ReaderThread} {handed₁}, d.readers c = some reader₁ →
      reader₁.step .turn = .ok (reader₁', handed₁) → handed₁ = handed := by
    intro reader₁ reader₁' handed₁ here₁ turns₁
    obtain rfl := Option.some.inj (here.symm.trans here₁)
    exact (Prod.mk.inj (Except.ok.inj (turns₁.symm.trans turns))).2
  cases Daemon.step_cases h with
  | turned here₁ turns₁ => rw [hsame here₁ turns₁]
  | command here₁ turns₁ _ => rw [hsame here₁ turns₁]
  | reject here₁ turns₁ _ => rw [hsame here₁ turns₁]
  | fed own _ => rcases own with ⟨ha, -⟩ | ⟨ha, -⟩ | ⟨_, _, ha, -⟩ <;> cases ha

theorem step_cases (h : p.step act = .ok (p', e)) : Stepped p p' e := by
  -- a step that is neither a turn of a reader nor of the matching thread
  have hother : ∀ {dact : DaemonAct}, dact ≠ .take → (∀ c, dact ≠ .drain c) → p.stepDaemon dact = .ok (p', e) →
      Stepped p p' e := by
    intro dact htake hdrain h
    obtain ⟨d, o, hd, rfl, rfl⟩ := stepDaemon_ok h
    exact .did hd (fun _ => htake) fun _ => handedCommand_eq_nil hd hdrain
  cases act with
  | thread dact =>
    cases dact with
    | take =>
      cases hphase : p.phase with
      | running =>
        simp only [step, hphase] at h
        split at h
        · next q hpanic =>
          obtain ⟨⟨⟨connId, cmd⟩, commands⟩, hrecv, h⟩ := exists_of_bind_ok h
          obtain ⟨matching, hstrike, h⟩ := exists_of_bind_ok h
          obtain ⟨rfl, rfl⟩ := Prod.mk.inj (Except.ok.inj h)
          exact .struck hphase hpanic (orWait_ok hrecv) (orPanic_ok hstrike)
        · obtain ⟨d, o, hd, rfl, rfl⟩ := stepDaemon_ok h
          refine .did hd (fun hne => absurd hphase hne) fun hgone => ?_
          rw [hphase] at hgone
          cases hgone
      | panicking => simp [step, hphase] at h
      | gone => simp [step, hphase] at h
    | drain connId =>
      by_cases hphase : p.phase = .gone
      · simp only [step, hphase] at h
        obtain ⟨reader, hreader, h⟩ := exists_of_bind_ok h
        obtain ⟨⟨reader', handed⟩, hturn, h⟩ := exists_of_bind_ok h
        have hreader := orWait_ok hreader
        have hturn := orBlock_ok hturn
        rcases handed with _ | (reason | cmd)
        · obtain ⟨d, o, hd, rfl, rfl⟩ := stepDaemon_ok h
          exact .did hd (fun _ => by simp) fun _ => by rw [obs_of_turn hd hreader hturn]; rfl
        · obtain ⟨d, o, hd, rfl, rfl⟩ := stepDaemon_ok h
          exact .did hd (fun _ => by simp) fun _ => by rw [obs_of_turn hd hreader hturn]; rfl
        · obtain ⟨rfl, rfl⟩ := Prod.mk.inj (Except.ok.inj h)
          exact .lost hphase hreader hturn
      · have hd : p.stepDaemon (.drain connId) = .ok (p', e) := by
          cases hp : p.phase with
          | gone => exact absurd hp hphase
          | running => simpa only [step, hp] using h
          | panicking => simpa only [step, hp] using h
        obtain ⟨d, o, hstep, rfl, rfl⟩ := stepDaemon_ok hd
        exact .did hstep (fun _ => by simp) fun hgone => absurd hgone hphase
    | accept cloned => exact hother (by simp) (by simp) h
    | read connId chunk => exact hother (by simp) (by simp) h
    | emit => exact hother (by simp) (by simp) h
    | dispatch ok => exact hother (by simp) (by simp) h
    | subscribe => exact hother (by simp) (by simp) h
    | fanOut => exact hother (by simp) (by simp) h
    | write id ok => exact hother (by simp) (by simp) h
  | unwind =>
    simp only [step] at h
    split at h
    · next hphase hpending =>
      cases h
      exact .unwound hphase hpending
    · cases h

theorem Stepped.phase (h : Stepped p p' e) (hp : p.phase ≠ .running) : p'.phase ≠ .running := by
  cases h with
  | did _ _ _ => exact hp
  | struck _ _ _ _ => simp
  | unwound _ _ => simp
  | lost _ _ _ => exact hp

/-- **Each reader** goes on as before. -/
theorem run_reader (c : ConnId) {s : Program k} (hf : s.daemon.Fresh) (h : run step s acts = .ok (p, os)) :
    run ReaderThread.step ((s.daemon.readers c).getD .new) ((os.flatMap Seen.obs).flatMap (Obs.toReader c)) =
      .ok ((p.daemon.readers c).getD .new, (os.flatMap Seen.obs).flatMap (Obs.fromReader c)) := by
  rw [List.flatMap_assoc, List.flatMap_assoc]
  refine run_project (fun p : Program k => (p.daemon.readers c).getD .new) (fun p => p.daemon.Fresh)
    (fun p act p' e hf h => ?_) hf h
  cases step_cases h with
  | did steps _ _ =>
    refine ⟨hf.step steps, ?_⟩
    have hone := Daemon.run_reader c hf (run_singleton steps)
    simpa only [Seen.obs, List.flatMap_cons, List.flatMap_nil, List.append_nil] using hone
  | struck _ _ _ _ => exact ⟨hf, rfl⟩
  | unwound _ _ => exact ⟨hf, rfl⟩
  | @lost c' reader reader' cmd _ here turns =>
    refine ⟨fun c₁ hle => ?_, ?_⟩
    · have hne : c₁ ≠ c' := by
        rintro rfl
        rw [hf c₁ hle] at here
        cases here
      exact (Function.update_of_ne hne _ _).trans (hf c₁ hle)
    · by_cases hc : c' = c
      · subst hc
        simp only [Seen.obs, Obs.toReader, Obs.fromReader, List.flatMap_cons, List.flatMap_nil, List.append_nil, if_true,
          here, Option.getD_some, Function.update_self]
        exact run_singleton turns
      · simp [Seen.obs, Obs.toReader, Obs.fromReader, hc, Function.update_of_ne (Ne.symm hc)]

/-- **The return channel** still neither loses nor reorders. -/
theorem run_returns {s : Program k} (h : run step s acts = .ok (p, os)) :
    s.daemon.returns.items ++ (os.flatMap Seen.obs).flatMap Obs.returnedItem =
      (os.flatMap Seen.obs).flatMap Obs.dispatchedItem ++ p.daemon.returns.items := by
  refine run_history (fun os (p : Program k) => s.daemon.returns.items ++ (os.flatMap Seen.obs).flatMap Obs.returnedItem =
    (os.flatMap Seen.obs).flatMap Obs.dispatchedItem ++ p.daemon.returns.items) (fun os p act p' e ih h => ?_)
    (by simp) h
  rw [List.flatMap_append, List.flatMap_append, List.flatMap_append, ← List.append_assoc, ih, List.append_assoc,
    List.append_assoc]
  congr 1
  cases step_cases h with
  | did steps _ _ =>
    have hone := Daemon.run_returns (run_singleton steps)
    simpa only [Seen.obs, List.flatMap_cons, List.flatMap_nil, List.append_nil] using hone
  | struck _ _ _ _ => simp [Seen.obs]
  | unwound _ _ => simp [Seen.obs]
  | lost _ _ _ => simp [Seen.obs, Obs.returnedItem, Obs.dispatchedItem]

/-- **The matching thread** only sends what it has left to send. -/
theorem run_matching {s : Program k} (hs : s.phase ≠ .running) (h : run step s acts = .ok (p, os)) :
    run (MatchingThread.step .release) s.daemon.matching ((os.flatMap Seen.obs).flatMap Obs.toMatching) =
      .ok (p.daemon.matching, (os.flatMap Seen.obs).flatMap Obs.fromMatching) := by
  rw [List.flatMap_assoc, List.flatMap_assoc]
  refine run_project (fun p : Program k => p.daemon.matching) (fun p => p.phase ≠ .running)
    (fun p act p' e hp h => ⟨(step_cases h).phase hp, ?_⟩) hs h
  cases step_cases h with
  | did steps _ _ =>
    have hone := Daemon.run_matching (run_singleton steps)
    simpa only [Seen.obs, List.flatMap_cons, List.flatMap_nil, List.append_nil] using hone
  | struck running _ _ _ => exact absurd running hp
  | unwound _ _ => rfl
  | lost _ _ _ => rfl

/-- **The market-data threads** go on as before. -/
theorem run_feed {s : Program k} (h : run step s acts = .ok (p, os)) :
    ∃ us, run (Feed.step k.marketData) s.daemon.feed ((os.flatMap Seen.obs).flatMap Obs.toFeed) =
      .ok (p.daemon.feed, us) := by
  rw [List.flatMap_assoc]
  refine ⟨_, run_project (fun p : Program k => p.daemon.feed) (g := fun e => (e.obs.flatMap Obs.toFeed).map fun _ => ())
    (fun _ => True) (fun p act p' e _ h => ⟨trivial, ?_⟩) trivial h⟩
  cases step_cases h with
  | did steps _ _ =>
    obtain ⟨us, hone⟩ := Daemon.run_feed (run_singleton steps)
    simp only [Seen.obs, List.flatMap_cons, List.flatMap_nil, List.append_nil] at hone ⊢
    have hus : us = (Obs.toFeed _).map fun _ => () :=
      List.ext_getElem (by rw [List.length_map]; exact run_length hone) (by simp)
    rw [hus] at hone
    exact hone
  | struck _ _ _ _ => rfl
  | unwound _ _ => rfl
  | lost _ _ _ => rfl

end Program

end MatchingEngine
