import MatchingEngine.Gateway.Matching
import MatchingEngine.Risk.Gate

/-!
# The matching thread, one send at a time

`gateway::matching` again, at the grain at which the matching thread shares its channels with
other threads: it takes a command, and then sends the command's events one by one, each through
the closure `process_command` is given. Nothing but the closure reads `resting_conn`, and nobody
else sees the engine, so the events are listed when the command is taken.

A command that panics is not taken: here the thread goes up to its first panic. The source has then
recorded the command, which comes before processing it, and has sent the events emitted on the way:
that is `MatchingThread.strike`.

* `MatchingThread.step_cases`: what one step does.
* `MatchingThread.run_sequential`: at any moment, what was sent and what is still to be sent is
  what `Matching.step` sends for the commands taken, one after the other.
-/

namespace MatchingEngine

/-- The thread's state, and the command it is at: its sender, its own order, and the events still to be
sent. -/
structure MatchingThread where
  matching : Matching
  connId : ConnId
  selfId : Option Key
  pending : List (ℕ × Event)

inductive MatchAct
  /-- A command comes off the channel. -/
  | take (connId : ConnId) (cmd : Command)
  /-- The next event is sent. -/
  | emit
  deriving DecidableEq

/-- The command a step takes. -/
def MatchAct.taken : MatchAct → Option (ConnId × Command)
  | .take connId cmd => some (connId, cmd)
  | .emit => none

/-- Why a thread takes no step. -/
inductive Stop
  | blocked
  | panicked (p : Panic)
  deriving DecidableEq

/-- A thread that panics stops. -/
def orPanic {α : Type} : Except Panic α → Except Stop α
  | .ok a => .ok a
  | .error p => .error (.panicked p)

theorem orPanic_ok {α : Type} {x : Except Panic α} {a : α} (h : orPanic x = .ok a) : x = .ok a := by
  cases x with
  | ok b =>
    cases h
    rfl
  | error p => cases h

namespace MatchingThread

def new (config : RiskConfig) (recorder : Option (List UInt8)) : MatchingThread :=
  ⟨.new config recorder, 0, none, []⟩

/-- The beginning of a turn of the loop: the command is recorded and processed. If it panics there is no
state after it. -/
def take (P : Profile) (t : MatchingThread) (connId : ConnId) (cmd : Command) : Except Panic MatchingThread := do
  let recorder ← record t.matching.recorder cmd
  let (system, evs) ← t.matching.system.processCommand P cmd
  pure ⟨⟨system, t.matching.restingConn, recorder⟩, connId, commandSelfId cmd, evs⟩

/-- One call of the closure, and what it sent. -/
def emit (t : MatchingThread) (x : ℕ × Event) (pending : List (ℕ × Event)) : Except Panic (MatchingThread × Dispatched) := do
  let (table, out) ← Matching.emit t.connId t.selfId (t.matching.restingConn, ⟨[], []⟩) x
  pure ({ t with matching := { t.matching with restingConn := table }, pending := pending }, out)

def step (P : Profile) (t : MatchingThread) : MatchAct → Except Stop (MatchingThread × Dispatched)
  | .take connId cmd =>
    match t.pending with
    | [] => do
      let t ← orPanic (t.take P connId cmd)
      pure (t, ⟨[], []⟩)
    | _ :: _ => .error .blocked
  | .emit =>
    match t.pending with
    | [] => .error .blocked
    | x :: pending => orPanic (t.emit x pending)

variable {P : Profile} {t t' : MatchingThread} {act : MatchAct} {acts : List MatchAct} {out : Dispatched}
  {outs : List Dispatched}

/-- What the closure sends for one event. -/
def sends (connId : ConnId) (selfId : Option Key) (table : RestingConn) (x : ℕ × Event) : Dispatched :=
  if x.2.isMarketData then ⟨[], [x.2]⟩ else ⟨[(Matching.destination connId selfId table x.2, x.1, x.2)], []⟩

/-- **What one step does.** -/
theorem step_cases (h : t.step P act = .ok (t', out)) :
    (∃ connId cmd evs, act = .take connId cmd ∧ t.pending = [] ∧
      t.matching.system.processCommand P cmd = .ok (t'.matching.system, evs) ∧
      t' = ⟨⟨t'.matching.system, t.matching.restingConn, t.matching.recorder.map (· ++ commandBytes cmd)⟩, connId,
        commandSelfId cmd, evs⟩ ∧ out = ⟨[], []⟩) ∨
    (∃ x pending, act = .emit ∧ t.pending = x :: pending ∧
      t' = ⟨⟨t.matching.system, Matching.after t.connId t.selfId t.matching.restingConn x.2, t.matching.recorder⟩,
        t.connId, t.selfId, pending⟩ ∧ out = sends t.connId t.selfId t.matching.restingConn x) := by
  cases act with
  | take connId cmd =>
    left
    simp only [step] at h
    split at h
    · next hnil =>
      obtain ⟨t₁, ht₁, h⟩ := exists_of_bind_ok h
      obtain ⟨rfl, rfl⟩ := Prod.mk.inj (Except.ok.inj h)
      have htake := orPanic_ok ht₁
      unfold take at htake
      obtain ⟨recorder, hrec, htake⟩ := exists_of_bind_ok htake
      rw [Matching.record_eq] at hrec
      obtain rfl := Except.ok.inj hrec
      obtain ⟨⟨system, evs⟩, hp, htake⟩ := exists_of_bind_ok htake
      obtain rfl := Except.ok.inj htake
      exact ⟨connId, cmd, evs, rfl, hnil, hp, rfl, rfl⟩
    · cases h
  | emit =>
    right
    simp only [step] at h
    split at h
    · cases h
    · next x pending hpending =>
      have hemit := orPanic_ok h
      unfold emit at hemit
      obtain ⟨seq, ev⟩ := x
      rw [Matching.emit_eq] at hemit
      obtain ⟨rfl, rfl⟩ := Prod.mk.inj (Except.ok.inj hemit)
      refine ⟨(seq, ev), pending, rfl, hpending, rfl, ?_⟩
      unfold sends
      split
      · rfl
      · rfl

/-- An event can always be sent, as far as the thread is concerned. -/
theorem step_emit {x : ℕ × Event} {pending : List (ℕ × Event)} (h : t.pending = x :: pending) :
    t.step P .emit = .ok (⟨⟨t.matching.system, Matching.after t.connId t.selfId t.matching.restingConn x.2,
      t.matching.recorder⟩, t.connId, t.selfId, pending⟩, sends t.connId t.selfId t.matching.restingConn x) := by
  obtain ⟨seq, ev⟩ := x
  simp only [step, h, emit, Matching.emit_eq, sends]
  split
  · rfl
  · rfl

/-- A command can be taken between two commands, unless processing it panics. -/
theorem step_take {connId : ConnId} {cmd : Command} {system : System} {evs : List (ℕ × Event)} (hnil : t.pending = [])
    (hp : t.matching.system.processCommand P cmd = .ok (system, evs)) :
    ∃ t', t.step P (.take connId cmd) = .ok (t', ⟨[], []⟩) ∧ t'.pending = evs := by
  simp only [step, hnil, take, Matching.record_eq, hp, bind, Except.bind, pure, Except.pure, orPanic]
  exact ⟨_, rfl, rfl⟩

/-! ### Against the thread that takes whole turns -/

/-- Every event of a command carries the command's number. -/
theorem processCommand_numbers {s s' : System} {cmd : Command} {evs : List (ℕ × Event)}
    (h : s.processCommand P cmd = .ok (s', evs)) : ∀ x ∈ evs, x.1 = s.engineSeq + 1 := by
  rcases System.processCommand_gate h with ⟨ev, -, -, rfl⟩ | ⟨-, evs', -, rfl⟩
  · intro x hx
    rw [List.mem_singleton.1 hx]
  · intro x hx
    obtain ⟨ev, -, rfl⟩ := List.mem_map.1 hx
    rfl

/-- **The thread numbers the commands**: what the `j`th command sends back carries the number `j`, from one. -/
theorem run_numbers {final : Matching} {s : Matching} {inputs : List (ConnId × Command)}
    (h : run (Matching.step P) s inputs = .ok (final, outs)) {j : ℕ} (hj : outs[j]? = some out) :
    ∀ x ∈ out.returns, x.2.1 = s.system.engineSeq + j + 1 := by
  refine run_counts (fun t : Matching => t.system.engineSeq) (Q := fun out n => ∀ x ∈ out.returns, x.2.1 = n)
    (fun t i t' o hstep => ?_) h hj
  obtain ⟨evs, hp, -, hall, -, -⟩ := Matching.step_cases hstep
  refine ⟨System.processCommand_seq hp, fun x hx => ?_⟩
  have hmem : x.2 ∈ evs.filter (fun e => !e.2.isMarketData) := hall ▸ List.mem_map_of_mem hx
  exact processCommand_numbers hp _ (List.mem_of_mem_filter hmem)

/-- So does the system on its own. -/
theorem runFrom_numbers {s s' : System} {cmds : List Command} {evss : List (List (ℕ × Event))}
    (h : s.runFrom P cmds = .ok (s', evss)) {j : ℕ} {evs : List (ℕ × Event)} (hj : evss[j]? = some evs) :
    ∀ x ∈ evs, x.1 = s.engineSeq + j + 1 :=
  run_counts System.engineSeq (Q := fun evs n => ∀ x ∈ evs, x.1 = n)
    (fun _ _ _ _ hstep => ⟨System.processCommand_seq hstep, processCommand_numbers hstep⟩) h hj

/-- What is sent for events in sequence, by the table each of them finds. -/
def sendsAll (connId : ConnId) (selfId : Option Key) : RestingConn → List (ℕ × Event) → List Dispatched
  | _, [] => []
  | table, x :: evs => sends connId selfId table x :: sendsAll connId selfId (Matching.after connId selfId table x.2) evs

/-- What was put on the return channel. -/
def returned (outs : List Dispatched) : List (ConnId × ℕ × Event) := outs.flatMap Dispatched.returns

/-- What was offered to the market-data channel. -/
def offered (outs : List Dispatched) : List Event := outs.flatMap Dispatched.marketData

@[simp] theorem returned_append (outs outs' : List Dispatched) :
    returned (outs ++ outs') = returned outs ++ returned outs' := List.flatMap_append

@[simp] theorem offered_append (outs outs' : List Dispatched) :
    offered (outs ++ outs') = offered outs ++ offered outs' := List.flatMap_append

/-- The loop over the events of a command sends what its calls of the closure send. -/
theorem foldlM_emit_eq (connId : ConnId) (selfId : Option Key) (evs : List (ℕ × Event)) (table : RestingConn)
    (out : Dispatched) :
    evs.foldlM (Matching.emit connId selfId) (table, out) =
      .ok ((evs.map Prod.snd).foldl (Matching.after connId selfId) table,
        ⟨out.returns ++ returned (sendsAll connId selfId table evs),
          out.marketData ++ offered (sendsAll connId selfId table evs)⟩) := by
  induction evs generalizing table out with
  | nil => simp [returned, offered, sendsAll, pure, Except.pure]
  | cons x evs ih =>
    obtain ⟨seq, ev⟩ := x
    rw [List.foldlM_cons, Matching.emit_eq]
    refine (ih _ _).trans ?_
    simp only [List.map_cons, List.foldl_cons, sendsAll, returned, offered, List.flatMap_cons, sends]
    split
    · simp
    · simp

theorem sendsAll_returned (connId : ConnId) (selfId : Option Key) (table : RestingConn) (evs : List (ℕ × Event)) :
    (returned (sendsAll connId selfId table evs)).map Prod.snd = evs.filter (fun e => !e.2.isMarketData) := by
  induction evs generalizing table with
  | nil => rfl
  | cons x evs ih =>
    have hsplit : returned (sendsAll connId selfId table (x :: evs)) = (sends connId selfId table x).returns ++
        returned (sendsAll connId selfId (Matching.after connId selfId table x.2) evs) := rfl
    rw [hsplit, List.map_append, ih]
    by_cases hmd : x.2.isMarketData = true
    · simp [sends, hmd]
    · simp [sends, hmd]

theorem sendsAll_offered (connId : ConnId) (selfId : Option Key) (table : RestingConn) (evs : List (ℕ × Event)) :
    offered (sendsAll connId selfId table evs) = (evs.filter (fun e => e.2.isMarketData)).map Prod.snd := by
  induction evs generalizing table with
  | nil => rfl
  | cons x evs ih =>
    have hsplit : offered (sendsAll connId selfId table (x :: evs)) = (sends connId selfId table x).marketData ++
        offered (sendsAll connId selfId (Matching.after connId selfId table x.2) evs) := rfl
    rw [hsplit, ih]
    by_cases hmd : x.2.isMarketData = true
    · simp [sends, hmd]
    · simp [sends, hmd]

/-- **What the thread sends is what the engine emits**, market data apart from the rest. -/
theorem run_system {s final : Matching} {inputs : List (ConnId × Command)}
    (h : run (Matching.step P) s inputs = .ok (final, outs)) :
    ∃ evss, s.system.runFrom P (inputs.map Prod.snd) = .ok (final.system, evss) ∧
      (returned outs).map Prod.snd = evss.flatten.filter (fun e => !e.2.isMarketData) ∧
      offered outs = (evss.flatten.filter (fun e => e.2.isMarketData)).map Prod.snd := by
  induction inputs generalizing s outs with
  | nil =>
    cases h
    exact ⟨[], rfl, rfl, rfl⟩
  | cons i inputs ih =>
    obtain ⟨connId, cmd⟩ := i
    obtain ⟨s₁, out, outs', h1, h2, rfl⟩ := run_cons_inv h
    obtain ⟨evss, hrun, hret, hmd⟩ := ih h2
    unfold Matching.step at h1
    obtain ⟨recorder, -, h1⟩ := exists_of_bind_ok h1
    obtain ⟨⟨system, evs⟩, hp, h1⟩ := exists_of_bind_ok h1
    dsimp only at h1
    rw [foldlM_emit_eq] at h1
    obtain ⟨rfl, rfl⟩ := Prod.mk.inj (Except.ok.inj h1)
    refine ⟨evs :: evss, run_cons_ok hp hrun, ?_, ?_⟩
    · rw [List.flatten_cons, List.filter_append, ← hret, ← sendsAll_returned, ← List.map_append]
      rfl
    · rw [List.flatten_cons, List.filter_append, List.map_append, ← hmd, ← sendsAll_offered]
      rfl

/-- What the commands taken so far send, one whole turn after the other: `sent` of it has been sent, and the
events still pending are the rest. -/
structure Sequential (P : Profile) (config : RiskConfig) (recorder : Option (List UInt8)) (t : MatchingThread)
    (taken : List (ConnId × Command)) (sent : List Dispatched) (final : Matching) (outs : List Dispatched) : Prop where
  run : run (Matching.step P) (.new config recorder) taken = .ok (final, outs)
  system : final.system = t.matching.system
  recorder : final.recorder = t.matching.recorder
  table : final.restingConn = (t.pending.map Prod.snd).foldl (Matching.after t.connId t.selfId) t.matching.restingConn
  returns : returned outs = returned sent ++ returned (sendsAll t.connId t.selfId t.matching.restingConn t.pending)
  marketData : offered outs = offered sent ++ offered (sendsAll t.connId t.selfId t.matching.restingConn t.pending)

variable {config : RiskConfig} {recorder : Option (List UInt8)} {taken : List (ConnId × Command)} {sent : List Dispatched}
  {final : Matching}

theorem Sequential.new (P : Profile) (config : RiskConfig) (recorder : Option (List UInt8)) :
    Sequential P config recorder (.new config recorder) [] [] (.new config recorder) [] :=
  ⟨rfl, rfl, rfl, rfl, rfl, rfl⟩

/-- **One step**: a command taken adds its turn, an event sent moves over from what is still to be sent. -/
theorem Sequential.step (h : Sequential P config recorder t taken sent final outs) (hstep : t.step P act = .ok (t', out)) :
    ∃ final' outs', Sequential P config recorder t' (taken ++ act.taken.toList) (sent ++ [out]) final' outs' := by
  rcases step_cases hstep with ⟨connId, cmd, evs, rfl, hnil, hp, ht', rfl⟩ | ⟨x, pending, rfl, hpending, rfl, rfl⟩
  · -- nothing was pending: the state before is that of whole turns
    have htable : final.restingConn = t.matching.restingConn := by rw [h.table, hnil]; rfl
    have hturn : final.step P (connId, cmd) = .ok (⟨t'.matching.system, (evs.map Prod.snd).foldl
        (Matching.after connId (commandSelfId cmd)) t.matching.restingConn,
        t.matching.recorder.map (· ++ commandBytes cmd)⟩,
        ⟨returned (sendsAll connId (commandSelfId cmd) t.matching.restingConn evs),
          offered (sendsAll connId (commandSelfId cmd) t.matching.restingConn evs)⟩) := by
      unfold Matching.step
      rw [h.system, h.recorder, htable]
      simp only [Matching.record_eq, hp, bind, Except.bind, foldlM_emit_eq, pure, Except.pure, List.nil_append]
    have hret := h.returns
    have hmd := h.marketData
    rw [hnil] at hret hmd
    refine ⟨_, _, run_append_ok h.run (run_cons_ok hturn rfl), ?_, ?_, ?_, ?_, ?_⟩
    · rfl
    · rw [ht']
    · rw [ht']
    · rw [ht', returned_append, hret]
      simp [returned, sendsAll]
    · rw [ht', offered_append, hmd]
      simp [offered, sendsAll]
  · rw [show (MatchAct.emit).taken.toList = [] from rfl, List.append_nil]
    refine ⟨final, outs, h.run, h.system, h.recorder, ?_, ?_, ?_⟩
    · rw [h.table, hpending]
      rfl
    · rw [h.returns, hpending, returned_append]
      simp [returned, sendsAll]
    · rw [h.marketData, hpending, offered_append]
      simp [offered, sendsAll]

/-- **The matching thread does whole turns**, as far as anyone can see: at any moment, what it has sent and what
it is still to send is what the commands taken send one after the other. -/
theorem run_sequential (h : run (step P) (.new config recorder) acts = .ok (t, outs)) :
    ∃ final outs', Sequential P config recorder t (acts.filterMap MatchAct.taken) outs final outs' := by
  have hgen : ∀ {t t' : MatchingThread} {taken : List (ConnId × Command)} {sent outs outs₀ : List Dispatched}
      {final : Matching}, Sequential P config recorder t taken sent final outs₀ →
      run (step P) t acts = .ok (t', outs) →
      ∃ final' outs', Sequential P config recorder t' (taken ++ acts.filterMap MatchAct.taken) (sent ++ outs)
        final' outs' := by
    clear h
    induction acts with
    | nil =>
      intro t t' taken sent outs outs₀ final hseq h
      cases h
      exact ⟨final, outs₀, by simpa using hseq⟩
    | cons act acts ih =>
      intro t t' taken sent outs outs₀ final hseq h
      obtain ⟨t₁, o, outs', h1, h2, rfl⟩ := run_cons_inv h
      obtain ⟨final₁, outs₁, hseq₁⟩ := hseq.step h1
      obtain ⟨final', outs'', hend⟩ := ih hseq₁ h2
      refine ⟨final', outs'', ?_⟩
      rw [List.append_assoc, List.append_assoc, List.singleton_append] at hend
      cases act with
      | take connId cmd => exact hend
      | emit => exact hend
  exact hgen (Sequential.new P config recorder) h

end MatchingThread

end MatchingEngine
