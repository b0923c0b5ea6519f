import MatchingEngine.Gateway.Reader
import MatchingEngine.Risk.Model

/-!
# The matching thread

`gateway::matching`: the sole owner of the engine. Each command is recorded, if recording is
on, then processed, and what it emits is sent one event at a time: market data to the
market-data channel, everything else back to a connection.

A report about the command's own order goes to the connection that sent it. Any other goes to
the connection `resting_conn` names for its order; the table is kept up from the events alone,
as they pass. Writes to the recorder are taken to succeed; a channel is what was put on it.

* `foldlM_emit`: the loop over the emitted events, with the table each of them finds.
* `step_cases`: one turn of the thread; `run_recorder`: it records what it is sent.
-/

namespace MatchingEngine

namespace Event

/-- `Trade` or `BookUpdate`. -/
def isMarketData : Event → Bool
  | .trade .. => true
  | .bookUpdate .. => true
  | _ => false

/-- `SnapshotLevel`, `SnapshotAccount` or `SnapshotSummary`. -/
def isSnapshot : Event → Bool
  | .snapshotLevel .. => true
  | .snapshotAccount .. => true
  | .snapshotSummary .. => true
  | _ => false

end Event

/-- The order a command names. -/
def commandSelfId : Command → Option Key
  | .newOrder accountId orderId .. => some (accountId, orderId)
  | .cancelOrder accountId orderId => some (accountId, orderId)
  | .cancelReplace accountId orderId .. => some (accountId, orderId)
  | .massCancel _ => none
  | .killSwitch _ => none
  | .snapshot => none

/-- The order an event is about. -/
def eventId : Event → Option Key
  | .accepted accountId orderId _ => some (accountId, orderId)
  | .rejected accountId orderId _ => some (accountId, orderId)
  | .filled accountId orderId .. => some (accountId, orderId)
  | .cancelled accountId orderId => some (accountId, orderId)
  | .replaced accountId orderId .. => some (accountId, orderId)
  | _ => none

/-- What a recorder writes for a command: `buf[..len]` of a fresh buffer. -/
def recorded (cmd : Command) : Except Panic (List UInt8) := do
  let (buf, len) ← encodeCommand cmd (List.replicate maxMessageLen 0)
  pure (buf.take len)

/-- The recording hook: nothing if recording is off. -/
def record (recorder : Option (List UInt8)) (cmd : Command) : Except Panic (Option (List UInt8)) :=
  match recorder with
  | none => pure none
  | some written => do
    let bytes ← recorded cmd
    pure (some (written ++ bytes))

/-- What a recorder writes for commands in sequence. -/
def recording : List Command → Except Panic (List UInt8)
  | [] => pure []
  | cmd :: cmds => do
    let bytes ← recorded cmd
    let rest ← recording cmds
    pure (bytes ++ rest)

/-- `resting_conn`. -/
abbrev RestingConn := Finmap (fun _ : Key => ConnId)

/-- What was put on the two channels. -/
structure Dispatched where
  returns : List (ConnId × ℕ × Event)
  marketData : List Event
  deriving DecidableEq

/-- What the loop of `run_matching_thread` carries; `recorder` is what was written. -/
structure Matching where
  system : System
  restingConn : RestingConn
  recorder : Option (List UInt8)

namespace Matching

def new (config : RiskConfig) (recorder : Option (List UInt8)) : Matching := ⟨.new config, ∅, recorder⟩

/-- Where a report about the order `id` goes. -/
def route (connId : ConnId) (selfId : Option Key) (table : RestingConn) (id : Key) : ConnId :=
  if some id = selfId then connId else (table.lookup id).getD connId

/-- The table after an event about the order `id` that went to `route`. -/
def settle (table : RestingConn) (id : Key) (route : ConnId) : Event → RestingConn
  | .accepted _ _ restingQty => if restingQty > 0 then table.insert id route else table
  | .filled _ _ _ _ _ restingQty _ => if restingQty > 0 then table.insert id route else table.erase id
  | .cancelled .. => table.erase id
  | .replaced .. => table.insert id route
  | _ => table

/-- The closure `process_command` is given. -/
def emit (connId : ConnId) (selfId : Option Key) (st : RestingConn × Dispatched) (x : ℕ × Event) :
    Except Panic (RestingConn × Dispatched) :=
  let (table, out) := st
  let (seq, event) := x
  if event.isMarketData then pure (table, { out with marketData := out.marketData ++ [event] })
  else if event.isSnapshot then pure (table, { out with returns := out.returns ++ [(connId, seq, event)] })
  else do
    let id ← expect "execution-report events always carry account/order" (eventId event)
    let dest := route connId selfId table id
    pure (settle table id dest event, { out with returns := out.returns ++ [(dest, seq, event)] })

/-- One turn of the loop. -/
def step (P : Profile) (t : Matching) : ConnId × Command → Except Panic (Matching × Dispatched)
  | (connId, cmd) => do
    let recorder ← record t.recorder cmd
    let (system, evs) ← t.system.processCommand P cmd
    let (restingConn, out) ← evs.foldlM (emit connId (commandSelfId cmd)) (t.restingConn, ⟨[], []⟩)
    pure (⟨system, restingConn, recorder⟩, out)

/-! ### The loop over the events -/

section Loop

variable (connId : ConnId) (selfId : Option Key)

/-- The table after one event. -/
def after (table : RestingConn) (ev : Event) : RestingConn :=
  match eventId ev with
  | none => table
  | some id => settle table id (route connId selfId table id) ev

/-- The connection an event goes to. -/
def destination (table : RestingConn) (ev : Event) : ConnId :=
  match eventId ev with
  | none => connId
  | some id => route connId selfId table id

variable {connId selfId}

/-- **The closure never panics**: what is neither market data nor a snapshot names an order. -/
theorem emit_eq (table : RestingConn) (out : Dispatched) (seq : ℕ) (ev : Event) :
    emit connId selfId (table, out) (seq, ev) = .ok (after connId selfId table ev,
      if ev.isMarketData then { out with marketData := out.marketData ++ [ev] }
      else { out with returns := out.returns ++ [(destination connId selfId table ev, seq, ev)] }) := by
  cases ev <;> rfl

/-- **The loop over the events of a command**: it ends, every event but market data goes back, and it was
sent by the table of its moment. -/
theorem foldlM_emit (evs : List (ℕ × Event)) (table : RestingConn) (out : Dispatched) :
    ∃ out', evs.foldlM (emit connId selfId) (table, out) =
        .ok ((evs.map Prod.snd).foldl (after connId selfId) table, out') ∧
      out'.returns.map Prod.snd = out.returns.map Prod.snd ++ evs.filter (fun e => !e.2.isMarketData) ∧
      ∀ x ∈ out'.returns, x ∈ out.returns ∨ ∃ pre post, evs = pre ++ x.2 :: post ∧
        x.1 = destination connId selfId ((pre.map Prod.snd).foldl (after connId selfId) table) x.2.2 := by
  -- on the events, with the table each of them finds
  induction evs generalizing table out with
  | nil => exact ⟨out, rfl, (List.append_nil _).symm, fun x hx => Or.inl hx⟩
  | cons e evs ih =>
    obtain ⟨seq, ev⟩ := e
    rw [List.foldlM_cons, emit_eq]
    obtain ⟨out', hfold, hall, hsent⟩ := ih (after connId selfId table ev)
      (if ev.isMarketData then { out with marketData := out.marketData ++ [ev] }
        else { out with returns := out.returns ++ [(destination connId selfId table ev, seq, ev)] })
    refine ⟨out', hfold, ?_, fun x hx => ?_⟩
    · rw [hall]
      by_cases hmd : ev.isMarketData = true
      · rw [if_pos hmd, List.filter_cons_of_neg (by simp [hmd])]
      · rw [if_neg hmd, List.filter_cons_of_pos (by simpa using hmd), List.map_append, List.append_assoc]
        rfl
    · rcases hsent x hx with hin | ⟨pre, post, rfl, hdest⟩
      · by_cases hmd : ev.isMarketData = true
        · rw [if_pos hmd] at hin
          exact Or.inl hin
        · rw [if_neg hmd] at hin
          rcases List.mem_append.1 hin with hin | hin
          · exact Or.inl hin
          · rw [List.mem_singleton.1 hin]
            exact Or.inr ⟨[], evs, rfl, rfl⟩
      · exact Or.inr ⟨(seq, ev) :: pre, post, rfl, hdest⟩

end Loop

/-! ### Turns and runs -/

section Runs

variable {P : Profile} {t t' : Matching} {connId : ConnId} {cmd : Command} {out : Dispatched}

/-- The bytes a recorder writes are the encoding. -/
theorem recorded_eq (cmd : Command) : recorded cmd = .ok (commandBytes cmd) := by
  obtain ⟨buf, hbuf, htake⟩ := encodeCommand_encodes cmd (List.replicate maxMessageLen 0) (by simp)
  unfold recorded
  rw [hbuf]
  exact congrArg Except.ok htake

theorem record_eq (recorder : Option (List UInt8)) (cmd : Command) :
    record recorder cmd = .ok (recorder.map (· ++ commandBytes cmd)) := by
  cases recorder with
  | none => rfl
  | some written =>
    unfold record
    rw [recorded_eq]
    rfl

theorem recording_eq (cmds : List Command) : recording cmds = .ok (cmds.map commandBytes).flatten := by
  induction cmds with
  | nil => rfl
  | cons cmd cmds ih =>
    unfold recording
    rw [recorded_eq, ih]
    rfl

/-- **One turn**: the command goes through `process_command`, its events through the table, and all but the
market data back to a connection. -/
theorem step_cases (h : t.step P (connId, cmd) = .ok (t', out)) :
    ∃ evs, t.system.processCommand P cmd = .ok (t'.system, evs) ∧
      t'.restingConn = (evs.map Prod.snd).foldl (after connId (commandSelfId cmd)) t.restingConn ∧
      out.returns.map Prod.snd = evs.filter (fun e => !e.2.isMarketData) ∧
      (∀ x ∈ out.returns, ∃ pre post, evs = pre ++ x.2 :: post ∧ x.1 = destination connId (commandSelfId cmd)
        ((pre.map Prod.snd).foldl (after connId (commandSelfId cmd)) t.restingConn) x.2.2) ∧
      t'.recorder = t.recorder.map (· ++ commandBytes cmd) := by
  unfold step at h
  simp only [record_eq] at h
  cases hp : t.system.processCommand P cmd with
  | error e =>
    rw [hp] at h
    cases h
  | ok r =>
    obtain ⟨system, evs⟩ := r
    obtain ⟨out', hfold, hall, hsent⟩ := @foldlM_emit connId (commandSelfId cmd) evs t.restingConn ⟨[], []⟩
    rw [hp] at h
    simp only [bind, Except.bind, pure, Except.pure, hfold, Except.ok.injEq, Prod.mk.injEq] at h
    obtain ⟨rfl, rfl⟩ := h
    refine ⟨evs, rfl, rfl, hall, fun x hx => ?_, rfl⟩
    exact (hsent x hx).resolve_left List.not_mem_nil

/-- **The thread records what it is sent**, in order. -/
theorem run_recorder {inputs : List (ConnId × Command)} {outs : List Dispatched} {config : RiskConfig}
    (h : run (step P) (new config (some [])) inputs = .ok (t, outs)) :
    ∃ bytes, recording (inputs.map Prod.snd) = .ok bytes ∧ t.recorder = some bytes := by
  refine ⟨_, recording_eq _, ?_⟩
  have hall : ∀ {t t' : Matching} {outs : List Dispatched} {written : List UInt8},
      t.recorder = some written → run (step P) t inputs = .ok (t', outs) →
      t'.recorder = some (written ++ ((inputs.map Prod.snd).map commandBytes).flatten) := by
    clear h
    induction inputs with
    | nil =>
      intro t t' outs written hw h
      cases h
      rw [hw]
      simp
    | cons i inputs ih =>
      intro t t' outs written hw h
      obtain ⟨t₁, o, os, h1, h2, -⟩ := run_cons_inv h
      obtain ⟨-, -, -, -, -, hrec⟩ := step_cases h1
      rw [hw] at hrec
      rw [ih hrec h2]
      simp
  have hend : t.recorder = some ([] ++ _) := hall rfl h
  rw [hend, List.nil_append]

end Runs

end Matching

end MatchingEngine
