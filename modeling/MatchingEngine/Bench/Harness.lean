import MatchingEngine.Gateway.MatchingThread
import MatchingEngine.Risk.Config
import MatchingEngine.Bench.Workload

/-!
# The measuring harness

`bench::harness`: a sender thread draws a command for every slot of a fixed schedule, enters its key in the
table of what is pending and writes it; a reader thread takes the replies, shows each to the workload and then
takes its key out of the table. What is taken out is one measurement, of the slot entered under the key. The
daemon in between takes the commands one by one and sends back what goes to this connection.

The threads and the daemon run in any order. What is not the program's own here: `keys`, the keys entered so
far, and `overtaken`, the slots whose entry was found by a later one under the same key, and lost. The times, the rate and the histogram's values are
left out, and so is a write that fails; the reader may stop at any moment.

* `Harness.step_cases`: what one step does.
-/

namespace MatchingEngine

/-- `risk-bench.toml`. -/
def RiskConfig.bench : RiskConfig :=
  ⟨1000000, 1000000000000, 10, by decide, by decide, RiskConfig.default.priceBandPct_lt⟩

example : (RiskConfig.load (some ("# raised\n\nmax_open_orders = 1_000_000\nmax_notional_ticks = 1_000_000_000_000\n" ++
    "price_band_pct = 10\n"))).values = RiskConfig.bench.values := by decide +kernel

/-- `RunConfig`, without the rate. -/
structure RunConfig where
  messages : ℕ
  warmup : ℕ

def eventCorrelationId : Event → Option Key
  | .accepted accountId orderId _ => some (accountId, orderId)
  | .rejected accountId orderId _ => some (accountId, orderId)
  | .filled accountId orderId .. => some (accountId, orderId)
  | .cancelled accountId orderId => some (accountId, orderId)
  | .replaced accountId orderId .. => some (accountId, orderId)
  | .trade .. => none
  | .bookUpdate .. => none
  | .snapshotLevel .. => none
  | .snapshotAccount .. => none
  | .snapshotSummary .. => none

/-- Where the sender's loop stands. -/
inductive SenderState
  | ready
  /-- `next_command` has returned. -/
  | drawn (key : Key) (cmd : Command)
  /-- The key is in the table. -/
  | entered (cmd : Command)
  deriving DecidableEq

/-- The two threads of `run`, the table between them, the socket and the daemon. -/
structure Harness where
  workload : Workload
  sender : SenderState
  slot : ℕ
  pending : Finmap (fun _ : Key => ℕ)
  written : List Command
  matching : Matching
  replies : List Event
  /-- The reply that the workload was shown and that is not correlated yet. -/
  observed : Option Event
  /-- A slot and its reply for each time `matched_count` was raised. -/
  measured : List (ℕ × Event)
  samples : ℕ
  keys : List Key
  overtaken : List ℕ

inductive HarnessAct
  | draw
  | enter
  | write
  /-- The daemon takes a command. -/
  | process
  | observe
  | correlate
  deriving DecidableEq

namespace Harness

/-- The first connection the daemon takes. -/
def connId : ConnId := 1

def start (mix : Mix) (seed : UInt64) : Harness :=
  ⟨.new mix seed, .ready, 0, ∅, [], .new .bench none, [], none, [], 0, [], []⟩

/-- The reply takes its key out of the table. -/
def correlate (config : RunConfig) (h : Harness) (event : Event) : Harness :=
  match eventCorrelationId event with
  | none => { h with observed := none }
  | some id =>
    match h.pending.lookup id with
    -- not the first reply for its command
    | none => { h with observed := none }
    | some slot =>
      let count := h.measured.length + 1
      { h with
        observed := none
        pending := h.pending.erase id
        measured := h.measured ++ [(slot, event)]
        samples := if count > config.warmup then h.samples + 1 else h.samples }

def step (config : RunConfig) (h : Harness) : HarnessAct → Except Stop (Harness × Unit)
  | .draw =>
    match h.sender with
    | .ready =>
      if h.slot < config.messages then do
        let ((key, cmd), workload) ← orPanic h.workload.nextCommand
        pure ({ h with workload := workload, sender := .drawn key cmd }, ())
      else .error .blocked
    | _ => .error .blocked
  | .enter =>
    match h.sender with
    | .drawn key cmd =>
      .ok ({ h with
        sender := .entered cmd
        pending := h.pending.insert key h.slot
        keys := h.keys ++ [key]
        overtaken := h.overtaken ++ (h.pending.lookup key).toList }, ())
    | _ => .error .blocked
  | .write =>
    match h.sender with
    | .entered cmd => .ok ({ h with sender := .ready, slot := h.slot + 1, written := h.written ++ [cmd] }, ())
    | _ => .error .blocked
  | .process =>
    match h.written with
    | cmd :: written => do
      let (matching, out) ← orPanic (h.matching.step .release (connId, cmd))
      let replies := (out.returns.filter (fun x => x.1 = connId)).map (fun x => x.2.2)
      pure ({ h with written := written, matching := matching, replies := h.replies ++ replies }, ())
    | [] => .error .blocked
  | .observe =>
    match h.observed, h.replies with
    | none, event :: replies =>
      .ok ({ h with workload := h.workload.observe event, observed := some event, replies := replies }, ())
    | _, _ => .error .blocked
  | .correlate =>
    match h.observed with
    | some event => .ok (h.correlate config event, ())
    | none => .error .blocked

/-- **What one step does.** -/
inductive Stepped (config : RunConfig) (h : Harness) : HarnessAct → Harness → Prop
  | drew {key : Key} {cmd : Command} {workload : Workload} (ready : h.sender = .ready) (slot : h.slot < config.messages)
    (draws : h.workload.nextCommand = .ok ((key, cmd), workload)) :
    Stepped config h .draw { h with workload := workload, sender := .drawn key cmd }
  | entered {key : Key} {cmd : Command} (drawn : h.sender = .drawn key cmd) :
    Stepped config h .enter { h with
      sender := .entered cmd
      pending := h.pending.insert key h.slot
      keys := h.keys ++ [key]
      overtaken := h.overtaken ++ (h.pending.lookup key).toList }
  | wrote {cmd : Command} (entered : h.sender = .entered cmd) :
    Stepped config h .write { h with sender := .ready, slot := h.slot + 1, written := h.written ++ [cmd] }
  | processed {cmd : Command} {written : List Command} {matching : Matching} {out : Dispatched}
    (here : h.written = cmd :: written) (takes : h.matching.step .release (connId, cmd) = .ok (matching, out)) :
    Stepped config h .process { h with
      written := written
      matching := matching
      replies := h.replies ++ (out.returns.filter (fun x => x.1 = connId)).map (fun x => x.2.2) }
  | observed {event : Event} {replies : List Event} (idle : h.observed = none) (here : h.replies = event :: replies) :
    Stepped config h .observe { h with
      workload := h.workload.observe event
      observed := some event
      replies := replies }
  | correlated {event : Event} (here : h.observed = some event) : Stepped config h .correlate (h.correlate config event)

theorem step_cases {config : RunConfig} {h h' : Harness} {act : HarnessAct} {u : Unit}
    (hstep : h.step config act = .ok (h', u)) : Stepped config h act h' := by
  unfold step at hstep
  cases act with
  | draw =>
    simp only at hstep
    split at hstep
    · next hready =>
      split at hstep
      · next hslot =>
        obtain ⟨⟨⟨key, cmd⟩, workload⟩, hdraws, hok⟩ := exists_of_bind_ok hstep
        cases hok
        exact .drew hready hslot (orPanic_ok hdraws)
      · cases hstep
    · cases hstep
  | enter =>
    simp only at hstep
    split at hstep
    · next hdrawn =>
      cases hstep
      exact .entered hdrawn
    · cases hstep
  | write =>
    simp only at hstep
    split at hstep
    · next hentered =>
      cases hstep
      exact .wrote hentered
    · cases hstep
  | process =>
    simp only at hstep
    split at hstep
    · next hwritten =>
      obtain ⟨⟨matching, out⟩, htakes, hok⟩ := exists_of_bind_ok hstep
      cases hok
      exact .processed hwritten (orPanic_ok htakes)
    · cases hstep
  | observe =>
    simp only at hstep
    split at hstep
    · next hidle hreplies =>
      cases hstep
      exact .observed hidle hreplies
    · cases hstep
  | correlate =>
    simp only at hstep
    split at hstep
    · next hobs =>
      cases hstep
      exact .correlated hobs
    · cases hstep

/-- A step panics only in a draw or in the daemon. -/
theorem step_panicked {config : RunConfig} {h : Harness} {act : HarnessAct} {p : Panic}
    (hstep : h.step config act = .error (.panicked p)) :
    h.slot < config.messages ∧ h.sender = .ready ∧ h.workload.nextCommand = .error p ∨
      ∃ cmd written, h.written = cmd :: written ∧ h.matching.step .release (connId, cmd) = .error p := by
  unfold step at hstep
  cases act with
  | draw =>
    simp only at hstep
    split at hstep
    · next hready =>
      split at hstep
      · next hslot =>
        cases hdraws : h.workload.nextCommand with
        | error e =>
          rw [hdraws] at hstep
          cases hstep
          exact Or.inl ⟨hslot, hready, rfl⟩
        | ok r =>
          rw [hdraws] at hstep
          cases hstep
      · cases hstep
    · cases hstep
  | process =>
    simp only at hstep
    split at hstep
    · next cmd written hwritten =>
      cases htakes : h.matching.step .release (connId, cmd) with
      | error e =>
        rw [htakes] at hstep
        cases hstep
        exact Or.inr ⟨cmd, written, hwritten, htakes⟩
      | ok r =>
        rw [htakes] at hstep
        cases hstep
    · cases hstep
  | _ =>
    simp only at hstep
    split at hstep <;> cases hstep

/-- Everything sent, processed, read and correlated. -/
structure AtRest (config : RunConfig) (h : Harness) : Prop where
  sender : h.sender = .ready
  slot : h.slot = config.messages
  written : h.written = []
  replies : h.replies = []
  observed : h.observed = none

end Harness

/-- `RunReport`: the counts. -/
structure RunReport where
  sent : ℕ
  matched : ℕ
  warmupExcluded : ℕ
  histogramLen : ℕ

namespace RunReport

/-- `sent - matched`, unsigned: less than none panics or wraps. -/
def unmatched (P : Profile) (r : RunReport) : Except Panic ℕ := P.store64 ((r.sent : ℤ) - r.matched)

def histogramSamples (P : Profile) (r : RunReport) : Except Panic ℕ := P.store64 ((r.matched : ℤ) - r.warmupExcluded)

end RunReport

/-- The report at the end of `run`. -/
def Harness.report (config : RunConfig) (h : Harness) : RunReport :=
  ⟨config.messages, h.measured.length, min config.warmup h.measured.length, h.samples⟩

end MatchingEngine
