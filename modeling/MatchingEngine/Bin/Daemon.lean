import MatchingEngine.Gateway.ReaderThread
import MatchingEngine.Gateway.MatchingThread
import MatchingEngine.Gateway.Dispatcher
import MatchingEngine.Lib.Network

/-!
# The daemon

`bin::run` and `gateway::run_order_entry`: the accept loop, one reader for every connection, the
matching thread, the return dispatcher and the market-data threads, joined by the bounded command
channel, the bounded return channel and the market-data channel. Threads run in any order. A send
into a full command or return channel waits; a market-data event is offered with `try_send` and
never waits. A step a thread would have to wait for cannot be taken, and a step that panics ends
the run, except in a reader: a reader's panic ends that reader alone.

So a run is a run of the program **up to the first panic of its matching thread**, and the results
about runs are about these. In the release build only a snapshot panics, over an order at price zero.
What the program does afterwards, without its matching thread, is `Program`.

A write to a client's socket begins and ends within one step. A client that does not read leaves
the write waiting: the dispatcher's step is then not taken, the item it is at counts as still on the
channel, and an `accept` waits with it, since the map of write halves is locked meanwhile.

What a step puts out says what happened; the outputs of a run are its history.

* `Daemon.step_cases`: what one step does.
* `Daemon.run_reader`, `Daemon.run_matching`, `Daemon.run_dispatcher`, `Daemon.run_feed`: in a run of
  the daemon each thread runs on what reaches it.
-/

namespace MatchingEngine

/-- The bounds of the channels `run` makes. -/
structure ChannelCapacities where
  command : ℕ
  returns : ℕ
  marketData : Capacities
  command_pos : 1 ≤ command
  returns_pos : 1 ≤ returns

/-- `COMMAND_CHANNEL_CAPACITY`, `RETURN_CHANNEL_CAPACITY`. -/
def ChannelCapacities.default : ChannelCapacities :=
  ⟨1024, 1024, .default, Nat.le_add_left 1 1023, Nat.le_add_left 1 1023⟩

/-- The threads and the channels between them. -/
structure Daemon (k : ChannelCapacities) where
  nextConnId : ConnId
  readers : ConnId → Option ReaderThread
  commands : Chan (ConnId × Command) k.command
  matching : MatchingThread
  returns : Chan (ConnId × ℕ × Event) k.returns
  dispatcher : Dispatcher
  feed : Feed

/-- The steps of the threads. -/
inductive DaemonAct
  /-- The accept loop takes a connection; it may fail to split it. -/
  | accept (cloned : Bool)
  /-- A read of a connection returns. -/
  | read (connId : ConnId) (chunk : List UInt8)
  /-- A reader takes a turn of the loop of `drain_frames`. -/
  | drain (connId : ConnId)
  /-- The matching thread takes a command. -/
  | take
  /-- The matching thread sends an event. -/
  | emit
  /-- The return dispatcher takes an item; a write to its socket succeeds or not. -/
  | dispatch (ok : Bool)
  /-- A subscriber connects. -/
  | subscribe
  /-- The fan-out thread takes an event. -/
  | fanOut
  /-- A subscriber's writer takes an event; the write may fail. -/
  | write (id : SubscriberId) (ok : Bool)
  deriving DecidableEq

/-- What happened. -/
inductive Obs
  | connected (connId : ConnId) (cloned : Bool)
  | read (connId : ConnId) (chunk : List UInt8)
  | turned (connId : ConnId) (handed : Option (Except RejectReason Command))
  | taken (connId : ConnId) (cmd : Command)
  | sent (out : Dispatched)
  | dispatched (connId : ConnId) (engineSeq : ℕ) (event : Event) (ok : Bool) (report : Option Report)
  | fed (act : FeedAct)

/-- A thread that has to wait takes no step. -/
def orWait {α : Type} : Option α → Except Stop α
  | some a => .ok a
  | none => .error .blocked

def orBlock {α : Type} : Except Blocked α → Except Stop α
  | .ok a => .ok a
  | .error .waiting => .error .blocked

theorem orWait_ok {α : Type} {x : Option α} {a : α} (h : orWait x = .ok a) : x = some a := by
  cases x with
  | some b =>
    cases h
    rfl
  | none => cases h

theorem orBlock_ok {α : Type} {x : Except Blocked α} {a : α} (h : orBlock x = .ok a) : x = .ok a := by
  cases x with
  | ok b =>
    cases h
    rfl
  | error e =>
    cases e
    cases h

namespace Daemon

variable {k : ChannelCapacities}

def start (k : ChannelCapacities) (config : RiskConfig) (recorder : Option (List UInt8)) : Daemon k :=
  ⟨1, fun _ => none, .empty, .new config recorder, .empty, .start, .start⟩

/-- A reader's send: a command to the matching thread, a reject to the dispatcher. Neither channel is closed
while the matching thread runs. -/
def hand (d : Daemon k) (connId : ConnId) : Except RejectReason Command → Option (Daemon k)
  | .ok cmd => do
    let commands ← d.commands.send (connId, cmd)
    pure { d with commands := commands }
  | .error reason => do
    let returns ← d.returns.send (connId, wireLevelRejectEngineSeq, malformedReject reason)
    pure { d with returns := returns }

/-- The market-data threads take a step. -/
def feedStep (d : Daemon k) (act : FeedAct) : Except Stop (Daemon k × Obs) := do
  let (feed, _) ← orBlock (d.feed.step k.marketData act)
  pure ({ d with feed := feed }, .fed act)

/-- One step of a thread. -/
def step (P : Profile) (d : Daemon k) : DaemonAct → Except Stop (Daemon k × Obs)
  | .accept cloned =>
    let connId := d.nextConnId
    let d := { d with nextConnId := connId + 1 }
    if cloned then do
      let (dispatcher, _) ← orPanic (d.dispatcher.step P (.register connId))
      let readers := Function.update d.readers connId (some .new)
      pure ({ d with dispatcher := dispatcher, readers := readers }, .connected connId true)
    -- the connection is dropped, its number is spent
    else pure (d, .connected connId false)
  | .read connId chunk => do
    let reader ← orWait (d.readers connId)
    let (reader, _) ← orBlock (reader.step (.read chunk))
    pure ({ d with readers := Function.update d.readers connId (some reader) }, .read connId chunk)
  | .drain connId => do
    let reader ← orWait (d.readers connId)
    let (reader, handed) ← orBlock (reader.step .turn)
    let d := { d with readers := Function.update d.readers connId (some reader) }
    match handed with
    | none => pure (d, .turned connId none)
    | some r => do
      let d ← orWait (d.hand connId r)
      pure (d, .turned connId (some r))
  | .take => do
    -- a panic ends the run: what the other threads do without the matching thread is in `Program.step`
    let ((connId, cmd), commands) ← orWait d.commands.recv
    let (matching, _) ← d.matching.step P (.take connId cmd)
    pure ({ d with commands := commands, matching := matching }, .taken connId cmd)
  | .emit => do
    let (matching, out) ← d.matching.step P .emit
    let returns ← orWait (d.returns.sendAll out.returns)
    let (feed, _) ← orBlock (run (Feed.step k.marketData) d.feed (out.marketData.map .offer))
    pure ({ d with matching := matching, returns := returns, feed := feed }, .sent out)
  | .dispatch ok => do
    let ((connId, engineSeq, event), returns) ← orWait d.returns.recv
    let (dispatcher, report) ← orPanic (d.dispatcher.step P (.item connId engineSeq event ok))
    pure ({ d with returns := returns, dispatcher := dispatcher }, .dispatched connId engineSeq event ok report)
  | .subscribe => d.feedStep .accept
  | .fanOut => d.feedStep .fanOut
  | .write id ok => d.feedStep (.write id ok)

variable {P : Profile} {d d' : Daemon k} {act : DaemonAct} {acts : List DaemonAct} {o : Obs} {os : List Obs}

/-- **What one step does.** -/
inductive Stepped (P : Profile) (d : Daemon k) : DaemonAct → Daemon k → Obs → Prop
  | connected {dispatcher} (registered : d.dispatcher.step P (.register d.nextConnId) = .ok (dispatcher, none)) :
    Stepped P d (.accept true) ⟨d.nextConnId + 1, Function.update d.readers d.nextConnId (some .new), d.commands,
      d.matching, d.returns, dispatcher, d.feed⟩ (.connected d.nextConnId true)
  | dropped : Stepped P d (.accept false) { d with nextConnId := d.nextConnId + 1 } (.connected d.nextConnId false)
  | read {connId chunk reader reader' handed} (here : d.readers connId = some reader)
    (reads : reader.step (.read chunk) = .ok (reader', handed)) :
    Stepped P d (.read connId chunk) { d with readers := Function.update d.readers connId (some reader') }
      (.read connId chunk)
  | turned {connId reader reader'} (here : d.readers connId = some reader)
    (turns : reader.step .turn = .ok (reader', none)) :
    Stepped P d (.drain connId) { d with readers := Function.update d.readers connId (some reader') }
      (.turned connId none)
  | command {connId reader reader' cmd commands} (here : d.readers connId = some reader)
    (turns : reader.step .turn = .ok (reader', some (.ok cmd))) (sends : d.commands.send (connId, cmd) = some commands) :
    Stepped P d (.drain connId)
      { d with readers := Function.update d.readers connId (some reader'), commands := commands }
      (.turned connId (some (.ok cmd)))
  | reject {connId reader reader' reason returns} (here : d.readers connId = some reader)
    (turns : reader.step .turn = .ok (reader', some (.error reason)))
    (sends : d.returns.send (connId, wireLevelRejectEngineSeq, malformedReject reason) = some returns) :
    Stepped P d (.drain connId)
      { d with readers := Function.update d.readers connId (some reader'), returns := returns }
      (.turned connId (some (.error reason)))
  | taken {connId cmd commands matching out} (recvs : d.commands.recv = some ((connId, cmd), commands))
    (takes : d.matching.step P (.take connId cmd) = .ok (matching, out)) :
    Stepped P d .take { d with commands := commands, matching := matching } (.taken connId cmd)
  | sent {matching out returns feed us} (emits : d.matching.step P .emit = .ok (matching, out))
    (sends : d.returns.sendAll out.returns = some returns)
    (offers : run (Feed.step k.marketData) d.feed (out.marketData.map .offer) = .ok (feed, us)) :
    Stepped P d .emit { d with matching := matching, returns := returns, feed := feed } (.sent out)
  | dispatched {connId engineSeq event ok returns dispatcher report}
    (recvs : d.returns.recv = some ((connId, engineSeq, event), returns))
    (writes : d.dispatcher.step P (.item connId engineSeq event ok) = .ok (dispatcher, report)) :
    Stepped P d (.dispatch ok) { d with returns := returns, dispatcher := dispatcher }
      (.dispatched connId engineSeq event ok report)
  | fed {act fact feed u} (own : act = .subscribe ∧ fact = .accept ∨ act = .fanOut ∧ fact = .fanOut ∨
      ∃ id ok, act = .write id ok ∧ fact = .write id ok) (feeds : d.feed.step k.marketData fact = .ok (feed, u)) :
    Stepped P d act { d with feed := feed } (.fed fact)

theorem feedStep_cases {fact : FeedAct} (h : d.feedStep fact = .ok (d', o)) :
    ∃ feed u, d.feed.step k.marketData fact = .ok (feed, u) ∧ d' = { d with feed := feed } ∧ o = .fed fact := by
  obtain ⟨⟨feed, u⟩, hfeed, h⟩ := exists_of_bind_ok h
  obtain ⟨rfl, rfl⟩ := Prod.mk.inj (Except.ok.inj h)
  exact ⟨feed, u, orBlock_ok hfeed, rfl, rfl⟩

theorem step_cases (h : d.step P act = .ok (d', o)) : Stepped P d act d' o := by
  cases act with
  | accept cloned =>
    cases cloned with
    | false =>
      cases h
      exact .dropped
    | true =>
      cases h
      exact .connected rfl
  | read connId chunk =>
    obtain ⟨reader, hreader, h⟩ := exists_of_bind_ok h
    obtain ⟨⟨reader', handed⟩, hstep, h⟩ := exists_of_bind_ok h
    obtain ⟨rfl, rfl⟩ := Prod.mk.inj (Except.ok.inj h)
    exact .read (orWait_ok hreader) (orBlock_ok hstep)
  | drain connId =>
    obtain ⟨reader, hreader, h⟩ := exists_of_bind_ok h
    obtain ⟨⟨reader', handed⟩, hstep, h⟩ := exists_of_bind_ok h
    cases handed with
    | none =>
      obtain ⟨rfl, rfl⟩ := Prod.mk.inj (Except.ok.inj h)
      exact .turned (orWait_ok hreader) (orBlock_ok hstep)
    | some r =>
      obtain ⟨d₁, hhand, h⟩ := exists_of_bind_ok h
      obtain ⟨rfl, rfl⟩ := Prod.mk.inj (Except.ok.inj h)
      have hhand := orWait_ok hhand
      cases r with
      | ok cmd =>
        obtain ⟨commands, hsend, heq⟩ := Option.bind_eq_some_iff.1 hhand
        obtain rfl := Option.some.inj heq
        exact .command (orWait_ok hreader) (orBlock_ok hstep) hsend
      | error reason =>
        obtain ⟨returns, hsend, heq⟩ := Option.bind_eq_some_iff.1 hhand
        obtain rfl := Option.some.inj heq
        exact .reject (orWait_ok hreader) (orBlock_ok hstep) hsend
  | take =>
    obtain ⟨⟨⟨connId, cmd⟩, commands⟩, hrecv, h⟩ := exists_of_bind_ok h
    obtain ⟨⟨matching, out⟩, htake, h⟩ := exists_of_bind_ok h
    obtain ⟨rfl, rfl⟩ := Prod.mk.inj (Except.ok.inj h)
    exact .taken (orWait_ok hrecv) htake
  | emit =>
    obtain ⟨⟨matching, out⟩, hemit, h⟩ := exists_of_bind_ok h
    obtain ⟨returns, hsend, h⟩ := exists_of_bind_ok h
    obtain ⟨⟨feed, us⟩, hfeed, h⟩ := exists_of_bind_ok h
    obtain ⟨rfl, rfl⟩ := Prod.mk.inj (Except.ok.inj h)
    exact .sent hemit (orWait_ok hsend) (orBlock_ok hfeed)
  | dispatch ok =>
    obtain ⟨⟨⟨connId, engineSeq, event⟩, returns⟩, hrecv, h⟩ := exists_of_bind_ok h
    obtain ⟨⟨dispatcher, report⟩, hwrite, h⟩ := exists_of_bind_ok h
    obtain ⟨rfl, rfl⟩ := Prod.mk.inj (Except.ok.inj h)
    exact .dispatched (orWait_ok hrecv) (orPanic_ok hwrite)
  | subscribe =>
    obtain ⟨feed, u, hfeed, rfl, rfl⟩ := feedStep_cases h
    exact .fed (Or.inl ⟨rfl, rfl⟩) hfeed
  | fanOut =>
    obtain ⟨feed, u, hfeed, rfl, rfl⟩ := feedStep_cases h
    exact .fed (Or.inr (Or.inl ⟨rfl, rfl⟩)) hfeed
  | write id ok =>
    obtain ⟨feed, u, hfeed, rfl, rfl⟩ := feedStep_cases h
    exact .fed (Or.inr (Or.inr ⟨id, ok, rfl, rfl⟩)) hfeed

end Daemon

/-! ### What reaches each thread -/

namespace Obs

variable (c : ConnId)

def toReader : Obs → List ReadAct
  | .read connId chunk => if connId = c then [.read chunk] else []
  | .turned connId _ => if connId = c then [.turn] else []
  | _ => []

def fromReader : Obs → List (Option (Except RejectReason Command))
  | .read connId _ => if connId = c then [none] else []
  | .turned connId handed => if connId = c then [handed] else []
  | _ => []

def toMatching : Obs → List MatchAct
  | .taken connId cmd => [.take connId cmd]
  | .sent _ => [.emit]
  | _ => []

def fromMatching : Obs → List Dispatched
  | .taken _ _ => [⟨[], []⟩]
  | .sent out => [out]
  | _ => []

def toDispatcher : Obs → List DispatchAct
  | .connected connId true => [.register connId]
  | .dispatched connId engineSeq event ok _ => [.item connId engineSeq event ok]
  | _ => []

def fromDispatcher : Obs → List (Option Report)
  | .connected _ true => [none]
  | .dispatched _ _ _ _ report => [report]
  | _ => []

def toFeed : Obs → List FeedAct
  | .sent out => out.marketData.map .offer
  | .fed act => [act]
  | _ => []

/-- A command put on the command channel. -/
def handedCommand : Obs → List (ConnId × Command)
  | .turned connId (some (.ok cmd)) => [(connId, cmd)]
  | _ => []

/-- A command taken off it. -/
def takenCommand : Obs → List (ConnId × Command)
  | .taken connId cmd => [(connId, cmd)]
  | _ => []

/-- An item put on the return channel. -/
def returnedItem : Obs → List (ConnId × ℕ × Event)
  | .turned connId (some (.error reason)) => [(connId, wireLevelRejectEngineSeq, malformedReject reason)]
  | .sent out => out.returns
  | _ => []

/-- An item taken off it. -/
def dispatchedItem : Obs → List (ConnId × ℕ × Event)
  | .dispatched connId engineSeq event _ _ => [(connId, engineSeq, event)]
  | _ => []

end Obs

namespace Feed

/-- No subscriber has a number that was not given out yet. -/
def Fresh (f : Feed) : Prop := ∀ id, f.nextId ≤ id → f.subscribers id = none

theorem Fresh.step {k : Capacities} {f f' : Feed} {act : FeedAct} {u : Unit} (hf : f.Fresh)
    (h : f.step k act = .ok (f', u)) : f'.Fresh := by
  cases act with
  | offer event =>
    simp only [Feed.step] at h
    split at h
    · cases h
      exact hf
    · cases h
      exact hf
  | fanOut =>
    simp only [Feed.step] at h
    split at h
    · cases h
    · cases h
      intro id hle
      simp only [hf id hle, Option.map_none]
  | accept =>
    cases h
    intro id hle
    have hlt : f.nextId < id := hle
    exact (Function.update_of_ne (Nat.ne_of_gt hlt) _ _).trans (hf id (Nat.le_of_lt hlt))
  | write id ok =>
    simp only [Feed.step] at h
    split at h
    · cases h
    · next sub hsub =>
      cases h
      intro id' hle
      have hne : id' ≠ id := by
        rintro rfl
        rw [hf id' hle] at hsub
        cases hsub
      exact (Function.update_of_ne hne _ _).trans (hf id' hle)

end Feed

namespace Daemon

section Projections

variable {k : ChannelCapacities} {P : Profile} {d d' : Daemon k} {act : DaemonAct} {acts : List DaemonAct} {o : Obs}
  {os : List Obs}

/-- No reader runs for a connection that was not accepted yet. -/
def Fresh (d : Daemon k) : Prop := ∀ c, d.nextConnId ≤ c → d.readers c = none

theorem Fresh.step (hf : d.Fresh) (h : d.step P act = .ok (d', o)) : d'.Fresh := by
  -- a reader that was running goes on under its own number
  have hupdate : ∀ {c : ConnId} {reader reader' : ReaderThread}, d.readers c = some reader →
      ∀ c', d.nextConnId ≤ c' → Function.update d.readers c (some reader') c' = none := by
    intro c reader reader' hc c' hle
    rw [Function.update_of_ne]
    · exact hf c' hle
    · rintro rfl
      rw [hf c' hle] at hc
      cases hc
  cases step_cases h with
  | connected _ =>
    intro c hle
    have hlt : d.nextConnId < c := hle
    show Function.update d.readers d.nextConnId (some ReaderThread.new) c = none
    rw [Function.update_of_ne (Nat.ne_of_gt hlt)]
    exact hf c (Nat.le_of_lt hlt)
  | dropped => exact fun c hle => hf c (Nat.le_of_succ_le hle)
  | read here _ => exact hupdate here
  | turned here _ => exact hupdate here
  | command here _ _ => exact hupdate here
  | reject here _ _ => exact hupdate here
  | taken _ _ => exact hf
  | sent _ _ _ => exact hf
  | dispatched _ _ => exact hf
  | fed _ _ => exact hf

/-- **Each reader** runs on its reads and turns. -/
theorem run_reader (c : ConnId) {s : Daemon k} (hf : s.Fresh) (h : run (step P) s acts = .ok (d, os)) :
    run ReaderThread.step ((s.readers c).getD .new) (os.flatMap (Obs.toReader c)) =
      .ok ((d.readers c).getD .new, os.flatMap (Obs.fromReader c)) := by
  refine run_project (fun d : Daemon k => (d.readers c).getD .new) Fresh (fun d act d' o hf h => ?_) hf h
  refine ⟨hf.step h, ?_⟩
  have hother : ∀ {c' : ConnId} {reader : ReaderThread}, c' ≠ c →
      (Function.update d.readers c' (some reader) c).getD .new = (d.readers c).getD .new := by
    intro c' reader hne
    rw [Function.update_of_ne hne.symm]
  have hhere : ∀ {c' : ConnId} {reader : ReaderThread}, d.readers c' = some reader → c' = c →
      (d.readers c).getD .new = reader := by
    rintro c' reader hreader rfl
    rw [hreader]
    rfl
  cases step_cases h with
  | connected _ =>
    by_cases hc : d.nextConnId = c
    · subst hc
      simp [Obs.toReader, Obs.fromReader, hf d.nextConnId (Nat.le_refl _)]
    · simp [Obs.toReader, Obs.fromReader, hother hc]
  | dropped => rfl
  | @read c' chunk reader reader' handed here reads =>
    by_cases hc : c' = c
    · have hnone : handed = none := by
        rcases ReaderThread.step_cases reads with ⟨_, _, _, _, ho⟩ | ⟨_, _, _, _, _, _, ho⟩ | ⟨_, _, _, ha, _⟩ |
          ⟨_, _, _, ha, _⟩ | ⟨_, _, _, _, ha, _⟩
        · exact ho
        · exact ho
        · cases ha
        · cases ha
        · cases ha
      subst hc hnone
      simp only [Obs.toReader, Obs.fromReader, if_true, here, Option.getD_some, Function.update_self]
      exact run_singleton reads
    · simp [Obs.toReader, Obs.fromReader, hc, hother hc]
  | @turned c' reader reader' here turns =>
    by_cases hc : c' = c
    · subst hc
      simp only [Obs.toReader, Obs.fromReader, if_true, here, Option.getD_some, Function.update_self]
      exact run_singleton turns
    · simp [Obs.toReader, Obs.fromReader, hc, hother hc]
  | @command c' reader reader' cmd commands here turns sends =>
    by_cases hc : c' = c
    · subst hc
      simp only [Obs.toReader, Obs.fromReader, if_true, here, Option.getD_some, Function.update_self]
      exact run_singleton turns
    · simp [Obs.toReader, Obs.fromReader, hc, hother hc]
  | @reject c' reader reader' reason returns here turns sends =>
    by_cases hc : c' = c
    · subst hc
      simp only [Obs.toReader, Obs.fromReader, if_true, here, Option.getD_some, Function.update_self]
      exact run_singleton turns
    · simp [Obs.toReader, Obs.fromReader, hc, hother hc]
  | taken _ _ => rfl
  | sent _ _ _ => rfl
  | dispatched _ _ => rfl
  | fed _ _ => rfl

/-- **The matching thread** runs on the commands it takes. -/
theorem run_matching {s : Daemon k} (h : run (step P) s acts = .ok (d, os)) :
    run (MatchingThread.step P) s.matching (os.flatMap Obs.toMatching) = .ok (d.matching, os.flatMap Obs.fromMatching) := by
  refine run_project (fun d : Daemon k => d.matching) (fun _ => True) (fun d act d' o _ h => ⟨trivial, ?_⟩)
    trivial h
  cases step_cases h with
  | taken _ takes =>
    rcases MatchingThread.step_cases takes with ⟨_, _, _, _, _, _, _, rfl⟩ | ⟨_, _, ha, _⟩
    · exact run_singleton takes
    · cases ha
  | sent emits _ _ => exact run_singleton emits
  | _ => rfl

/-- **The return dispatcher** runs on the registrations and the items it takes. -/
theorem run_dispatcher {s : Daemon k} (h : run (step P) s acts = .ok (d, os)) :
    run (Dispatcher.step P) s.dispatcher (os.flatMap Obs.toDispatcher) =
      .ok (d.dispatcher, os.flatMap Obs.fromDispatcher) := by
  refine run_project (fun d : Daemon k => d.dispatcher) (fun _ => True) (fun d act d' o _ h => ⟨trivial, ?_⟩)
    trivial h
  cases step_cases h with
  | connected registered => exact run_singleton registered
  | dispatched _ writes => exact run_singleton writes
  | _ => rfl

/-- **The market-data threads** run on what is offered to them. -/
theorem run_feed {s : Daemon k} (h : run (step P) s acts = .ok (d, os)) :
    ∃ us, run (Feed.step k.marketData) s.feed (os.flatMap Obs.toFeed) = .ok (d.feed, us) := by
  refine ⟨_, run_project (fun d : Daemon k => d.feed) (g := fun o => o.toFeed.map fun _ => ()) (fun _ => True)
    (fun d act d' o _ h => ⟨trivial, ?_⟩) trivial h⟩
  cases step_cases h with
  | @sent _ _ _ _ us _ _ offers =>
    have hus : us = (List.map FeedAct.offer _).map fun _ => () :=
      List.ext_getElem (by rw [List.length_map]; exact run_length offers) (by simp)
    rw [hus] at offers
    exact offers
  | fed _ feeds => exact run_singleton feeds
  | _ => rfl

theorem run_fresh {s : Daemon k} (hs : s.Fresh) (hf : s.feed.Fresh) (h : run (step P) s acts = .ok (d, os)) :
    d.Fresh ∧ d.feed.Fresh := by
  have hall : ∀ is, Along (step P) (fun (_ : Daemon k) _ => True) s is := fun is =>
    along_of_forall (Q := fun _ => True) fun _ _ => trivial
  obtain ⟨us, hfeed⟩ := run_feed h
  refine ⟨run_inv Fresh (fun d act d' o hd _ hstep => hd.step hstep) hs (hall acts) h, ?_⟩
  exact run_inv (C := fun _ _ => True) Feed.Fresh (fun f act f' u hf _ hstep => hf.step hstep) hf
    (along_of_forall (Q := fun _ => True) fun _ _ => trivial) hfeed

/-! ### The channels between them -/

/-- **The command channel** neither loses nor reorders: what was put on it is what was taken off it, and then
what it holds. -/
theorem run_commands {s : Daemon k} (h : run (step P) s acts = .ok (d, os)) :
    s.commands.items ++ os.flatMap Obs.handedCommand = os.flatMap Obs.takenCommand ++ d.commands.items := by
  refine run_history (fun os (d : Daemon k) => s.commands.items ++ os.flatMap Obs.handedCommand =
    os.flatMap Obs.takenCommand ++ d.commands.items) (fun os d act d' o ih h => ?_) (by simp) h
  rw [List.flatMap_append, List.flatMap_append, ← List.append_assoc, ih]
  cases step_cases h with
  | command _ _ sends => simp [Obs.handedCommand, Obs.takenCommand, Chan.send_eq_some sends]
  | taken recvs _ => simp [Obs.handedCommand, Obs.takenCommand, Chan.recv_eq_some recvs]
  | _ => simp [Obs.handedCommand, Obs.takenCommand]

/-- **The return channel** neither loses nor reorders. -/
theorem run_returns {s : Daemon k} (h : run (step P) s acts = .ok (d, os)) :
    s.returns.items ++ os.flatMap Obs.returnedItem = os.flatMap Obs.dispatchedItem ++ d.returns.items := by
  refine run_history (fun os (d : Daemon k) => s.returns.items ++ os.flatMap Obs.returnedItem =
    os.flatMap Obs.dispatchedItem ++ d.returns.items) (fun os d act d' o ih h => ?_) (by simp) h
  rw [List.flatMap_append, List.flatMap_append, ← List.append_assoc, ih]
  cases step_cases h with
  | reject _ _ sends => simp [Obs.returnedItem, Obs.dispatchedItem, Chan.send_eq_some sends]
  | sent _ sends _ => simp [Obs.returnedItem, Obs.dispatchedItem, Chan.sendAll_eq_some sends]
  | dispatched recvs _ => simp [Obs.returnedItem, Obs.dispatchedItem, Chan.recv_eq_some recvs]
  | _ => simp [Obs.returnedItem, Obs.dispatchedItem]

end Projections

end Daemon

end MatchingEngine
