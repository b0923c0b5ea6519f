import MatchingEngine.Main.AtRest
import Mathlib.Algebra.BigOperators.Group.Finset.Basic
import Mathlib.Algebra.Order.BigOperators.Group.Finset
import Mathlib.Data.Prod.Lex
import Mathlib.Order.WellFounded

/-!
# The daemon never deadlocks

Clients connect and send, subscribers connect; every other step is the daemon's own. A reader waits for
the matching thread, the matching thread for the dispatcher, and the dispatcher for the client it writes
to, so as long as the clients read their sockets a full channel is emptied in the end: each own step
leaves less to do, counting from the sockets inwards (`weight`), and while something is left to do one of
them can be taken.

A client that does not read is what the whole daemon may come to wait for: the one dispatcher writes to
all of them. A subscriber that does not read holds up nothing but its own queue. `Unread` says who does
not read, and the result is about all choices of it.

The other way out is a crash. In the release build the matching thread panics on one occasion only: a
snapshot is taken while an order rests at price zero. The runs here end with it (`Bin/Daemon`).

* `Stepped.weight_lt`: own steps leave less to do.
* `Daemon.exists_own_step`: some own step can be taken, unless the daemon is at rest, waits for a client
  or is about to crash.
-/

namespace MatchingEngine

/-- What a reader is still to go through. -/
def ReaderThread.todo : ReaderThread → ℕ
  | .draining framer consumed => framer.buf.length - consumed + 1
  | _ => 0

theorem ReaderThread.turn_todo {st st' : ReaderThread} {o : Option (Except RejectReason Command)}
    (h : st.step .turn = .ok (st', o)) : st'.todo < st.todo := by
  rcases step_cases h with ⟨_, _, ha, _⟩ | ⟨_, _, _, ha, _⟩ | ⟨framer, n, rfl, -, -, rfl, -⟩ |
    ⟨framer, n, rfl, -, -, rfl, -⟩ | ⟨framer, n, frame, rfl, -, hframe, hsplit, hend⟩
  · cases ha
  · cases ha
  · exact Nat.succ_pos _
  · exact Nat.succ_pos _
  · rcases hend with ⟨-, rfl, -⟩ | ⟨r, -, rfl, -⟩
    · exact Nat.succ_pos _
    · have hlen := congrArg List.length hsplit
      have hpos := List.length_pos_of_ne_nil hframe.ne_nil
      rw [List.length_append, List.length_drop, List.length_drop] at hlen
      simp only [todo]
      omega

/-- Inside `drain_frames` there is always a next turn. -/
theorem ReaderThread.turn_ok {st : ReaderThread} (h : ¬ st.Settled) : ∃ st' o, st.step .turn = .ok (st', o) := by
  cases st with
  | reading framer => exact absurd trivial h
  | ended => exact absurd trivial h
  | draining framer n =>
    simp only [step]
    split
    · exact ⟨_, _, rfl⟩
    · exact ⟨_, _, rfl⟩
    · split
      · exact ⟨_, _, rfl⟩
      · exact ⟨_, _, rfl⟩

/-- **No item stops the dispatcher.** -/
theorem Dispatcher.step_total {P : Profile} (hP : P.Total) (d : Dispatcher) (act : DispatchAct) :
    ∃ d' out, d.step P act = .ok (d', out) := by
  cases act with
  | register c => exact ⟨_, _, rfl⟩
  | item c engineSeq event ok =>
    obtain ⟨seq, hseq⟩ := Option.isSome_iff_exists.1 (hP.u64 (((d.seqs.lookup c).getD 0 : ℤ) + 1) (by omega))
    obtain ⟨bytes, henc⟩ := Event.encodes seq engineSeq event
    obtain ⟨buf, hbuf, -⟩ := henc (List.replicate maxMessageLen 0) (by simp)
    unfold step
    simp only [Profile.store64_ok hseq, hbuf, bind, Except.bind]
    split
    · exact ⟨_, _, rfl⟩
    · exact ⟨_, _, rfl⟩

namespace Feed

variable {k : Capacities} {f f' : Feed} {u : Unit}

theorem step_fanOut_inv (h : f.step k .fanOut = .ok (f', u)) : f'.channel.length < f.channel.length := by
  rcases step_cases h with ⟨_, ha, _⟩ | ⟨item, -, -, hch, -⟩ | ⟨ha, _⟩ | ⟨_, _, _, _, ha, _⟩
  · cases ha
  · rw [hch]
    exact Nat.lt_succ_self _
  · cases ha
  · cases ha

theorem step_write_inv {id : SubscriberId} {ok : Bool} (h : f.step k (.write id ok) = .ok (f', u)) :
    ∃ sub sub', f.subscribers id = some sub ∧ sub'.queue.items.length < sub.queue.items.length ∧
      f' = { f with subscribers := Function.update f.subscribers id (if ok then some sub' else none) } := by
  simp only [step] at h
  split at h
  · cases h
  · next sub' hw =>
    cases h
    obtain ⟨sub, hsub, hw⟩ := Option.bind_eq_some_iff.1 hw
    refine ⟨sub, sub', hsub, ?_, rfl⟩
    obtain ⟨⟨⟨⟨event, position⟩, dropped⟩, queue⟩, hpop, heq⟩ := Option.bind_eq_some_iff.1 hw
    obtain rfl := Option.some.inj heq
    obtain ⟨hitems, -, -, -⟩ := DropOldestQueue.popBlocking_spec hpop
    rw [hitems]
    exact Nat.lt_succ_self _

theorem run_offers_ok (k : Capacities) (f : Feed) (evs : List Event) :
    ∃ f' us, run (step k) f (evs.map .offer) = .ok (f', us) := by
  induction evs generalizing f with
  | nil => exact ⟨f, [], rfl⟩
  | cons ev evs ih =>
    obtain ⟨f₁, hf₁, -⟩ := step_offer k f ev
    obtain ⟨f', us, hrun⟩ := ih f₁
    exact ⟨f', () :: us, run_cons_ok hf₁ hrun⟩

end Feed

/-- One entry fewer, or a smaller one. -/
theorem sum_update_lt {α : Type*} {f : ℕ → Option α} {g : α → ℕ} {n c : ℕ} {a : α} {b : Option α} (hc : c < n)
    (hf : f c = some a) (hlt : (b.map g).getD 0 < g a) :
    ∑ i ∈ Finset.range n, ((Function.update f c b i).map g).getD 0 < ∑ i ∈ Finset.range n, ((f i).map g).getD 0 := by
  have hhere : ((Function.update f c b c).map g).getD 0 < ((f c).map g).getD 0 := by
    rw [Function.update_self, hf]
    exact hlt
  refine Finset.sum_lt_sum (fun i _ => ?_) ⟨c, Finset.mem_range.2 hc, hhere⟩
  by_cases hi : i = c
  · subst hi
    exact Nat.le_of_lt hhere
  · rw [Function.update_of_ne hi]

/-- A step of one of the daemon's own threads, rather than of a client or a subscriber. -/
def DaemonAct.Own : DaemonAct → Prop
  | .accept _ => False
  | .read _ _ => False
  | .subscribe => False
  | _ => True

namespace Daemon

variable {k : ChannelCapacities} {P : Profile} {config : RiskConfig} {recorder : Option (List UInt8)} {d d' : Daemon k}
  {act : DaemonAct} {acts : List DaemonAct} {o : Obs} {os : List Obs}

/-- What is left to do: in the readers, on the command channel, in the matching thread, on the return channel, on
the market-data channel, in the subscribers' queues. -/
def weight (d : Daemon k) : ℕ ×ₗ ℕ ×ₗ ℕ ×ₗ ℕ ×ₗ ℕ ×ₗ ℕ :=
  toLex (∑ c ∈ Finset.range d.nextConnId, ((d.readers c).map ReaderThread.todo).getD 0,
    toLex (d.commands.items.length, toLex (d.matching.pending.length, toLex (d.returns.items.length,
      toLex (d.feed.channel.length,
        ∑ id ∈ Finset.range d.feed.nextId, ((d.feed.subscribers id).map fun sub => sub.queue.items.length).getD 0)))))

/-- **Own steps leave less to do.** -/
theorem step_weight_lt (hf : d.Fresh) (hfeed : d.feed.Fresh) (hown : act.Own) (h : d.step P act = .ok (d', o)) :
    d'.weight < d.weight := by
  have hreader : ∀ {c : ConnId} {reader reader' : ReaderThread} {handed : Option (Except RejectReason Command)},
      d.readers c = some reader → reader.step .turn = .ok (reader', handed) →
      ∑ i ∈ Finset.range d.nextConnId, ((Function.update d.readers c (some reader') i).map ReaderThread.todo).getD 0 <
        ∑ i ∈ Finset.range d.nextConnId, ((d.readers i).map ReaderThread.todo).getD 0 := by
    intro c reader reader' handed hc hturn
    have hlt : c < d.nextConnId := by
      by_contra hle
      rw [hf c (Nat.le_of_not_lt hle)] at hc
      cases hc
    exact sum_update_lt hlt hc (ReaderThread.turn_todo hturn)
  unfold weight
  simp only [Prod.Lex.toLex_lt_toLex]
  cases step_cases h with
  | connected _ => exact hown.elim
  | dropped => exact hown.elim
  | read _ _ => exact hown.elim
  | turned here turns => exact Or.inl (hreader here turns)
  | command here turns _ => exact Or.inl (hreader here turns)
  | reject here turns _ => exact Or.inl (hreader here turns)
  | taken recvs _ =>
    refine Or.inr ⟨rfl, Or.inl ?_⟩
    rw [Chan.recv_eq_some recvs]
    exact Nat.lt_succ_self _
  | sent emits _ _ =>
    refine Or.inr ⟨rfl, Or.inr ⟨rfl, Or.inl ?_⟩⟩
    rcases MatchingThread.step_cases emits with ⟨_, _, _, ha, _⟩ | ⟨x, pending, -, hp, rfl, -⟩
    · cases ha
    · rw [hp]
      exact Nat.lt_succ_self _
  | dispatched recvs _ =>
    refine Or.inr ⟨rfl, Or.inr ⟨rfl, Or.inr ⟨rfl, Or.inl ?_⟩⟩⟩
    rw [Chan.recv_eq_some recvs]
    exact Nat.lt_succ_self _
  | fed own feeds =>
    refine Or.inr ⟨rfl, Or.inr ⟨rfl, Or.inr ⟨rfl, Or.inr ⟨rfl, ?_⟩⟩⟩⟩
    rcases own with ⟨rfl, rfl⟩ | ⟨rfl, rfl⟩ | ⟨id, ok, rfl, rfl⟩
    · exact hown.elim
    · exact Or.inl (Feed.step_fanOut_inv feeds)
    · obtain ⟨sub, sub', hsub, hless, rfl⟩ := Feed.step_write_inv feeds
      refine Or.inr ⟨rfl, ?_⟩
      have hlt : id < d.feed.nextId := by
        by_contra hle
        rw [hfeed id (Nat.le_of_not_lt hle)] at hsub
        cases hsub
      refine sum_update_lt hlt hsub ?_
      cases ok with
      | true => exact hless
      | false => exact Nat.zero_lt_of_lt hless

/-! ### Something can always be done -/

theorem dispatch_ok (hP : P.Total) (h : d.returns.items ≠ []) : ∃ r, d.step P (.dispatch true) = .ok r := by
  obtain ⟨⟨c, engineSeq, event⟩, returns, hrecv⟩ := Chan.recv_of_ne_nil h
  obtain ⟨dispatcher, report, hwrite⟩ := Dispatcher.step_total hP d.dispatcher (.item c engineSeq event true)
  simp only [step, hrecv, orWait, hwrite, orPanic, bind, Except.bind, pure, Except.pure]
  exact ⟨_, rfl⟩

theorem emit_ok (hp : d.matching.pending ≠ []) (hr : d.returns.items = []) : ∃ r, d.step P .emit = .ok r := by
  obtain ⟨x, pending, hpending⟩ := List.exists_cons_of_ne_nil hp
  have hemit := @MatchingThread.step_emit P d.matching x pending hpending
  generalize hsends : MatchingThread.sends d.matching.connId d.matching.selfId d.matching.matching.restingConn x = out
    at hemit
  have hroom : d.returns.items.length < k.returns := by
    rw [hr]
    exact k.returns_pos
  obtain ⟨returns, hsend⟩ : ∃ returns, d.returns.sendAll out.returns = some returns := by
    subst hsends
    unfold MatchingThread.sends
    split
    · exact ⟨d.returns, rfl⟩
    · obtain ⟨ch, hch⟩ := d.returns.send_of_lt hroom
        (Matching.destination d.matching.connId d.matching.selfId d.matching.matching.restingConn x.2, x.1, x.2)
      exact ⟨ch, Option.bind_eq_some_iff.2 ⟨ch, hch, rfl⟩⟩
  obtain ⟨feed, us, hoffer⟩ := Feed.run_offers_ok k.marketData d.feed out.marketData
  simp only [step, hemit, hsend, hoffer, orWait, orBlock, bind, Except.bind, pure, Except.pure]
  exact ⟨_, rfl⟩

theorem drain_ok {c : ConnId} {reader : ReaderThread} (hc : d.readers c = some reader) (hst : ¬ reader.Settled)
    (hcmds : d.commands.items = []) (hr : d.returns.items = []) : ∃ r, d.step P (.drain c) = .ok r := by
  obtain ⟨reader', handed, hturn⟩ := ReaderThread.turn_ok hst
  cases handed with
  | none =>
    simp only [step, hc, hturn, orWait, orBlock, bind, Except.bind, pure, Except.pure]
    exact ⟨_, rfl⟩
  | some r =>
    cases r with
    | ok cmd =>
      obtain ⟨ch, hsend⟩ := d.commands.send_of_lt (by rw [hcmds]; exact k.command_pos) (c, cmd)
      simp only [step, hc, hturn, hand, hsend, orWait, orBlock, bind, Except.bind, Option.bind, pure, Except.pure]
      exact ⟨_, rfl⟩
    | error reason =>
      obtain ⟨ch, hsend⟩ := d.returns.send_of_lt (by rw [hr]; exact k.returns_pos)
        (c, wireLevelRejectEngineSeq, malformedReject reason)
      simp only [step, hc, hturn, hand, hsend, orWait, orBlock, bind, Except.bind, Option.bind, pure, Except.pure]
      exact ⟨_, rfl⟩

theorem fanOut_ok (h : d.feed.channel ≠ []) : ∃ r, d.step P .fanOut = .ok r := by
  obtain ⟨item, channel, hch⟩ := List.exists_cons_of_ne_nil h
  simp only [step, feedStep, Feed.step, hch, orBlock, bind, Except.bind, pure, Except.pure]
  exact ⟨_, rfl⟩

theorem write_ok {id : SubscriberId} {sub : Subscriber} (hid : d.feed.subscribers id = some sub)
    (h : sub.queue.items ≠ []) : ∃ r, d.step P (.write id true) = .ok r := by
  obtain ⟨item, items, hitems⟩ := List.exists_cons_of_ne_nil h
  simp only [step, feedStep, Feed.step, hid, Subscriber.write, DropOldestQueue.popBlocking, hitems, orBlock,
    bind, Except.bind, Option.bind, pure, Except.pure]
  exact ⟨_, rfl⟩

/-- The matching thread is between two commands, the next is a snapshot, and an order rests at price zero. -/
def Crashes (d : Daemon k) : Prop :=
  d.matching.pending = [] ∧ (∃ c rest, d.commands.items = (c, .snapshot) :: rest) ∧
    ∃ n ∈ d.matching.matching.system.engine.book.nodes, n.price = 0

/-- Whose sockets are not read at the other end: a write to one of them does not return. -/
structure Unread where
  clients : ConnId → Prop
  subscribers : SubscriberId → Prop

/-- Everyone reads. -/
def Unread.none : Unread := ⟨fun _ => False, fun _ => False⟩

/-- The step is, or begins with, a write that does not return. -/
def Waits (u : Unread) (d : Daemon k) : DaemonAct → Prop
  | .dispatch _ => ∃ x rest, d.returns.items = x :: rest ∧ x.1 ∈ d.dispatcher.writers ∧ u.clients x.1
  | .write id _ => u.subscribers id
  | _ => False

/-- Nothing is on its way, but to subscribers that do not read. -/
structure IdleBut (u : Unread) (d : Daemon k) : Prop where
  readers : ∀ c reader, d.readers c = some reader → reader.Settled
  commands : d.commands.items = []
  pending : d.matching.pending = []
  returns : d.returns.items = []
  channel : d.feed.channel = []
  queues : ∀ id sub, d.feed.subscribers id = some sub → ¬ u.subscribers id → sub.queue.items = []

theorem not_waits_none (d : Daemon k) (act : DaemonAct) : ¬ d.Waits .none act := by
  cases act with
  | dispatch ok =>
    rintro ⟨_, _, -, -, hun⟩
    exact hun
  | write id ok => exact fun hun => hun
  | _ => exact fun hun => hun

theorem IdleBut.idle (h : d.IdleBut .none) : d.Idle :=
  ⟨h.readers, h.commands, h.pending, h.returns, h.channel, fun id sub hid => h.queues id sub hid fun hun => hun⟩

/-- A state the daemon can be in. -/
def Reachable (config : RiskConfig) (recorder : Option (List UInt8)) (d : Daemon k) : Prop :=
  ∃ acts os, run (step .release) (start k config recorder) acts = .ok (d, os)

/-- The book of a state the daemon can be in, and the commands on the channel. -/
theorem Reachable.sim (h : d.Reachable config recorder) :
    (∃ r, Sim .release ⊤ d.matching.matching.system.engine.book r) ∧ ∀ x ∈ d.commands.items, x.2.Decodable := by
  obtain ⟨acts, os, hrun⟩ := h
  obtain ⟨final, outs, hlin⟩ := linearized hrun
  obtain ⟨r, hs, -⟩ := Matching.tracks_run Profile.release_total
    (fun x hx => hlin.decodable x (List.mem_append_left _ hx)) hlin.run
  rw [hlin.system] at hs
  exact ⟨⟨r, hs⟩, fun x hx => hlin.decodable x (List.mem_append_right _ hx)⟩

/-- The next command is taken, unless it is the one that crashes the daemon. -/
theorem take_ok (h : d.Reachable config recorder) (hp : d.matching.pending = []) (hcmds : d.commands.items ≠ []) :
    (∃ r, d.step .release .take = .ok r) ∨
      d.Crashes ∧ d.step .release .take = .error (.panicked Sim.zeroPricePanic) := by
  obtain ⟨⟨r, hs⟩, hdec⟩ := h.sim
  obtain ⟨⟨c, cmd⟩, commands, hrecv⟩ := Chan.recv_of_ne_nil hcmds
  have hhead := Chan.recv_eq_some hrecv
  have hcmd : cmd.Decodable := hdec (c, cmd) (by rw [hhead]; exact List.mem_cons_self)
  obtain ⟨risk, v, hgate⟩ := d.matching.matching.system.risk.preApplyCheck_release cmd
    d.matching.matching.system.engine.book
  have hgo : ∀ {system evs}, d.matching.matching.system.processCommand .release cmd = .ok (system, evs) →
      ∃ r, d.step .release .take = .ok r := by
    intro system evs hproc
    obtain ⟨t', htake, -⟩ := @MatchingThread.step_take .release d.matching c cmd system evs hp hproc
    simp only [step, hrecv, htake, orWait, bind, Except.bind, pure, Except.pure]
    exact ⟨_, rfl⟩
  cases v with
  | some ev => exact Or.inl (hgo (System.processCommand_reject hgate))
  | none =>
    rcases hs.apply_or_panic hcmd.checked (Fits.of_total Profile.release_total _) with ⟨e, he, -⟩ |
      ⟨rfl, ⟨o, ho, hzero⟩, hpanic⟩
    · exact Or.inl (hgo (System.processCommand_apply hgate he))
    · right
      refine ⟨⟨hp, ⟨c, commands.items, hhead⟩, ?_⟩, ?_⟩
      · obtain ⟨n, hn, rfl⟩ := List.mem_map.1 (hs.nodes_perm.mem_iff.2 ho)
        exact ⟨n, hn, hzero⟩
      · have hproc : d.matching.matching.system.processCommand .release .snapshot = .error Sim.zeroPricePanic := by
          simp only [System.processCommand, hgate, hpanic, bind, Except.bind]
        simp only [step, hrecv, orWait, MatchingThread.step, hp, MatchingThread.take, Matching.record_eq, hproc, orPanic,
          bind, Except.bind]

/-- **Something can always be done**: an own step, unless the daemon is at rest, waits for a client that does not
read, or crashes. -/
theorem exists_own_step (h : d.Reachable config recorder) (u : Unread) :
    d.IdleBut u ∨ d.Waits u (.dispatch true) ∨
      (d.Crashes ∧ d.step .release .take = .error (.panicked Sim.zeroPricePanic)) ∨
      ∃ act r, act.Own ∧ ¬ d.Waits u act ∧ d.step .release act = .ok r := by
  by_cases hr : d.returns.items = []
  · by_cases hp : d.matching.pending = []
    · by_cases hcmds : d.commands.items = []
      · by_cases hreaders : ∀ c reader, d.readers c = some reader → reader.Settled
        · by_cases hchannel : d.feed.channel = []
          · by_cases hqueues : ∀ id sub, d.feed.subscribers id = some sub → ¬ u.subscribers id → sub.queue.items = []
            · exact Or.inl ⟨hreaders, hcmds, hp, hr, hchannel, hqueues⟩
            · simp only [not_forall] at hqueues
              obtain ⟨id, sub, hid, hreads, hne⟩ := hqueues
              obtain ⟨r, hstep⟩ := write_ok hid hne
              exact Or.inr (Or.inr (Or.inr ⟨.write id true, r, trivial, hreads, hstep⟩))
          · obtain ⟨r, hstep⟩ := fanOut_ok hchannel
            exact Or.inr (Or.inr (Or.inr ⟨.fanOut, r, trivial, id, hstep⟩))
        · simp only [not_forall] at hreaders
          obtain ⟨c, reader, hc, hst⟩ := hreaders
          obtain ⟨r, hstep⟩ := drain_ok hc hst hcmds hr
          exact Or.inr (Or.inr (Or.inr ⟨.drain c, r, trivial, id, hstep⟩))
      · rcases take_ok h hp hcmds with ⟨r, hstep⟩ | hcrash
        · exact Or.inr (Or.inr (Or.inr ⟨.take, r, trivial, id, hstep⟩))
        · exact Or.inr (Or.inr (Or.inl hcrash))
    · obtain ⟨r, hstep⟩ := emit_ok hp hr
      exact Or.inr (Or.inr (Or.inr ⟨.emit, r, trivial, id, hstep⟩))
  · by_cases hwaits : d.Waits u (.dispatch true)
    · exact Or.inr (Or.inl hwaits)
    · obtain ⟨r, hstep⟩ := dispatch_ok Profile.release_total hr
      exact Or.inr (Or.inr (Or.inr ⟨.dispatch true, r, trivial, hwaits, hstep⟩))

end Daemon

/-- **The daemon never deadlocks while its clients read, and never runs on by itself.** From no state it can be in
does an infinite schedule of its own threads' steps start. Whoever does not read: where no thread can take a step but
for writes that do not return, everything is delivered except to subscribers that do not read, or the dispatcher's
next item is for a client that does not, or the matching thread's next command is a snapshot, an order rests at price
zero, and taking it panics. So if everyone reads, everything is delivered or the next command panics. -/
theorem daemon_never_deadlocks (k : ChannelCapacities) (config : RiskConfig) (recorder : Option (List UInt8)) :
    WellFounded (fun d' d : Daemon k => d.Reachable config recorder ∧
      ∃ act o, act.Own ∧ d.step .release act = .ok (d', o)) ∧
    (∀ (u : Daemon.Unread) (d : Daemon k), d.Reachable config recorder →
      (∀ act r, act.Own → ¬ d.Waits u act → d.step .release act ≠ .ok r) →
      d.IdleBut u ∨ d.Waits u (.dispatch true) ∨
        d.Crashes ∧ d.step .release .take = .error (.panicked Sim.zeroPricePanic)) ∧
    ∀ d : Daemon k, d.Reachable config recorder → (∀ act r, act.Own → d.step .release act ≠ .ok r) →
      d.Idle ∨ d.Crashes ∧ d.step .release .take = .error (.panicked Sim.zeroPricePanic) := by
  have hstuck : ∀ (u : Daemon.Unread) (d : Daemon k), d.Reachable config recorder →
      (∀ act r, act.Own → ¬ d.Waits u act → d.step .release act ≠ .ok r) →
      d.IdleBut u ∨ d.Waits u (.dispatch true) ∨
        d.Crashes ∧ d.step .release .take = .error (.panicked Sim.zeroPricePanic) := by
    intro u d hreach hno
    rcases Daemon.exists_own_step hreach u with hidle | hwaits | hcrash | ⟨act, r, hown, hreads, hstep⟩
    · exact Or.inl hidle
    · exact Or.inr (Or.inl hwaits)
    · exact Or.inr (Or.inr hcrash)
    · exact absurd hstep (hno act r hown hreads)
  refine ⟨wellFounded_of_measure Daemon.weight (fun d act d' o hreach hown hstep => ?_), hstuck, fun d hreach hno => ?_⟩
  · obtain ⟨acts, os, hrun⟩ := hreach
    obtain ⟨hf, hfeed⟩ := Daemon.run_fresh (Daemon.fresh_start k config recorder) (fun _ _ => rfl) hrun
    exact Daemon.step_weight_lt hf hfeed hown hstep
  · rcases hstuck .none d hreach fun act r hown _ => hno act r hown with hidle | hwaits | hcrash
    · exact Or.inl hidle.idle
    · exact absurd hwaits (d.not_waits_none _)
    · exact Or.inr hcrash

end MatchingEngine
