import MatchingEngine.Main.Interleaving
import MatchingEngine.Main.Transactions
import MatchingEngine.Main.Routing

/-!
# The daemon at rest

When no reader is inside `drain_frames` and every channel and queue is empty, nothing is on its way:
what the threads did together is what `run_reader` does for each connection and the matching thread for
the commands in the order it took them (`at_rest_everything_delivered`).

A client cares about its own orders. Each of its new orders, cancels and amends is acknowledged by one
event, which carries the command's number and goes back to the connection the command came from
(`orders_acknowledged_once`).

Both are about runs in which the matching thread has not panicked, with fewer than `2 ^ 64` commands
taken. At rest it is still there, and has taken everything that was sent to it.

* `System.processCommand_acknowledged`: one command.
* `Matching.step_acknowledged`: and where its acknowledgement goes.
-/

namespace MatchingEngine

/-- The event answers the command: an `Accepted`, `Rejected` or `Replaced` about its own order, or a cancel's
`Cancelled`. -/
def Event.acknowledges (cmd : Command) (ev : Event) : Bool :=
  decide (eventId ev = commandSelfId cmd) &&
    match cmd, ev with
    | .cancelOrder _ _, .cancelled _ _ => true
    | _, ev => ev.isAnswer

/-- What a sweep emits answers nothing. -/
theorem Items.no_answer {a i : ℕ} {s : Side} {limit : Option ℕ} {v : View} {q q' : ℕ} {evs : List Event}
    (h : Items a i s limit v q q' evs) : ∀ ev ∈ evs, ev.isAnswer = false := by
  induction h with
  | nil => simp
  | own _ _ _ ih => exact List.forall_mem_cons.2 ⟨rfl, ih⟩
  | trade _ _ _ _ _ _ _ ih =>
    exact List.forall_mem_cons.2 ⟨rfl, List.forall_mem_cons.2 ⟨rfl, List.forall_mem_cons.2 ⟨rfl, ih⟩⟩⟩

/-- An answer about the command's own order acknowledges it. -/
theorem acknowledges_of_answer {cmd : Command} {ev : Event} (hans : ev.isAnswer = true)
    (hid : eventId ev = commandSelfId cmd) : ev.acknowledges cmd = true := by
  unfold Event.acknowledges
  rw [decide_eq_true hid, Bool.true_and]
  split
  · rfl
  · exact hans

theorem filter_acknowledges_nil {cmd : Command} (hcmd : ∀ a i, cmd ≠ .cancelOrder a i) {evs : List Event}
    (h : ∀ ev ∈ evs, ev.isAnswer = false) : evs.filter (Event.acknowledges cmd) = [] := by
  refine List.filter_eq_nil_iff.2 fun ev hev => ?_
  unfold Event.acknowledges
  cases cmd with
  | cancelOrder a i => exact absurd rfl (hcmd a i)
  | _ => simp [h ev hev]

/-- One answer at the end of what answers nothing. -/
theorem filter_acknowledges_snoc {cmd : Command} (hcmd : ∀ a i, cmd ≠ .cancelOrder a i) {evs : List Event} {ev : Event}
    (h : ∀ ev ∈ evs, ev.isAnswer = false) (hans : ev.isAnswer = true) (hid : eventId ev = commandSelfId cmd) :
    (evs ++ [ev]).filter (Event.acknowledges cmd) = [ev] := by
  rw [List.filter_append, filter_acknowledges_nil hcmd h, List.nil_append,
    List.filter_cons_of_pos (acknowledges_of_answer hans hid), List.filter_nil]

/-- **The engine answers every command about an order once.** -/
theorem Ref.WF.dispatch_acknowledged {r : Ref} (h : r.WF) (P : Profile) {cmd : Command} {id : Key}
    (hid : commandSelfId cmd = some id) : ∃ ev, (r.dispatch P cmd).2.filter (Event.acknowledges cmd) = [ev] := by
  have htrans := (r.did P cmd).transaction h (h.dispatch_answers P cmd)
  cases cmd with
  | newOrder a i s p q k t ts =>
    have hcmd : ∀ a' i', Command.newOrder a i s p q k t ts ≠ .cancelOrder a' i' := by simp
    change NewOrderEvents _ a i s p q k t _ at htrans
    generalize (r.dispatch P (.newOrder a i s p q k t ts)).2 = evs at htrans
    cases htrans with
    | rejected reason => exact ⟨_, filter_acknowledges_snoc hcmd (List.forall_mem_nil _) rfl rfl⟩
    | wouldCross own => exact ⟨_, filter_acknowledges_snoc hcmd (by simp [Event.isAnswer]) rfl rfl⟩
    | accepted items => exact ⟨_, filter_acknowledges_snoc hcmd items.no_answer rfl rfl⟩
  | cancelOrder a i =>
    unfold Ref.dispatch Ref.cancel
    cases hf : r.find (a, i) with
    | none => exact ⟨.rejected a i .unknownOrderId, by simp [hf, Event.acknowledges, eventId, commandSelfId, Event.isAnswer]⟩
    | some so => exact ⟨.cancelled a i, by simp [hf, Event.acknowledges, eventId, commandSelfId]⟩
  | cancelReplace a i p q =>
    have hcmd : ∀ a' i', Command.cancelReplace a i p q ≠ .cancelOrder a' i' := by simp
    change CancelReplaceEvents _ a i p q _ at htrans
    generalize (r.dispatch P (.cancelReplace a i p q)).2 = evs at htrans
    cases htrans with
    | rejected reason => exact ⟨_, filter_acknowledges_snoc hcmd (List.forall_mem_nil _) rfl rfl⟩
    | @replaced s x q' retained evs rests items =>
      refine ⟨.replaced a i q retained, ?_⟩
      rw [List.filter_cons_of_pos (acknowledges_of_answer rfl rfl), filter_acknowledges_nil hcmd items.no_answer]
  | massCancel a => cases hid
  | killSwitch engaged => cases hid
  | snapshot => cases hid

/-- So does the engine behind the gate. -/
theorem System.processCommand_acknowledged {P : Profile} (hP : P.Total) {s s' : System} {r : Ref}
    (hs : Sim P ⊤ s.engine.book r) {cmd : Command} (hc : cmd.Decodable) {id : Key} (hid : commandSelfId cmd = some id)
    {evs : List (ℕ × Event)} (h : s.processCommand P cmd = .ok (s', evs)) :
    ∃ ev, evs.filter (fun x => x.2.acknowledges cmd) = [(s.engineSeq + 1, ev)] := by
  rcases processCommand_gate h with ⟨ev, hg, -, rfl⟩ | ⟨-, evs', ha, rfl⟩
  · obtain ⟨a, i, reason, rfl, hself⟩ := RiskState.preApplyCheck_answers hg
    refine ⟨.rejected a i reason, ?_⟩
    have hack : Event.acknowledges cmd (.rejected a i reason) = true := acknowledges_of_answer rfl hself.symm
    simp [hack]
  · obtain ⟨rfl, -⟩ := hs.applied hP hc ha
    obtain ⟨ev, hev⟩ := hs.wf.dispatch_acknowledged P hid
    refine ⟨ev, ?_⟩
    have happly : (r.apply P cmd).2.filter (Event.acknowledges cmd) = [ev] := by
      rcases r.apply_emits P cmd with heq | ⟨bid, ask, heq⟩
      · rw [heq, hev]
      · rw [heq, List.filter_append, hev]
        simp [Event.acknowledges, eventId, hid]
    rw [List.filter_map]
    change List.map _ ((r.apply P cmd).2.filter (Event.acknowledges cmd)) = _
    rw [happly]
    rfl

namespace Matching

variable {P : Profile} {t t' : Matching} {out : Dispatched} {r : Ref}

/-- **The acknowledgement goes back to where the command came from.** -/
theorem step_acknowledged (hP : P.Total) (hs : Sim P ⊤ t.system.engine.book r) {connId : ConnId} {cmd : Command}
    (hc : cmd.Decodable) {id : Key} (hid : commandSelfId cmd = some id) (h : t.step P (connId, cmd) = .ok (t', out)) :
    ∃ ev, out.returns.filter (fun x => x.2.2.acknowledges cmd) = [(connId, t.system.engineSeq + 1, ev)] := by
  obtain ⟨evs, hp, -, hall, hsent, -⟩ := step_cases h
  obtain ⟨ev, hev⟩ := System.processCommand_acknowledged hP hs hc hid hp
  -- an acknowledgement is about the command's own order, so it is no market data and goes to the sender
  have hown : ∀ x : ConnId × ℕ × Event, x.2.2.acknowledges cmd = true → eventId x.2.2 = some id := by
    intro x hx
    unfold Event.acknowledges at hx
    rw [Bool.and_eq_true, decide_eq_true_iff, hid] at hx
    exact hx.1
  have hmap : (out.returns.filter (fun x => x.2.2.acknowledges cmd)).map Prod.snd = [(t.system.engineSeq + 1, ev)] := by
    have hcomm : (out.returns.filter (fun x => x.2.2.acknowledges cmd)).map Prod.snd =
        (out.returns.map Prod.snd).filter (fun x => x.2.acknowledges cmd) := by
      rw [List.filter_map]
      rfl
    rw [hcomm, hall, List.filter_filter, ← hev]
    refine List.filter_congr fun x _ => ?_
    cases hack : x.2.acknowledges cmd with
    | false => rfl
    | true =>
      have hidx := hown (connId, x) hack
      cases hx : x.2 <;> rw [hx] at hidx <;> first | rfl | cases hidx
  obtain ⟨x, hx, hxe⟩ := List.map_eq_singleton_iff.1 hmap
  refine ⟨ev, ?_⟩
  have hmem : x ∈ out.returns.filter (fun x => x.2.2.acknowledges cmd) := by
    rw [hx]
    exact List.mem_singleton_self x
  obtain ⟨hin, hack⟩ := List.mem_filter.1 hmem
  obtain ⟨pre, post, -, hdest⟩ := hsent x hin
  have hconn : x.1 = connId := by
    rw [hdest]
    unfold destination
    rw [hown x hack]
    exact if_pos hid.symm
  rw [hx, ← hxe, ← hconn]

end Matching

/-- The reads of a connection. -/
def chunksFrom (c : ConnId) (os : List Obs) : List (List UInt8) :=
  (os.flatMap (Obs.toReader c)).filterMap ReadAct.chunk

/-- What answers put on the two channels. -/
theorem foldl_answer (c : ConnId) (rs : List (Except RejectReason Command)) (out : Sent) :
    rs.foldl (Reader.answer c) out = ⟨out.commands ++ (commandsOf rs).map (fun cmd => (c, cmd)),
      out.returns ++ (rejectsOf rs).map (wireReject c)⟩ := by
  induction rs generalizing out with
  | nil => simp [commandsOf, rejectsOf]
  | cons r rs ih =>
    rw [List.foldl_cons, ih]
    cases r with
    | ok cmd => simp [Reader.answer, commandsOf, rejectsOf]
    | error reason => simp [Reader.answer, Reader.reject, commandsOf, rejectsOf, wireReject]

/-- What carries the number of one element of a list of lists is in that element. -/
theorem filter_numbered {α β : Type*} {f : α → List β} {number : β → ℕ} {l : List α} {n : ℕ}
    (h : ∀ j a, l[j]? = some a → ∀ x ∈ f a, number x = n + j + 1) {j : ℕ} {a : α} (hj : l[j]? = some a) :
    (l.flatMap f).filter (fun x => number x = n + j + 1) = f a := by
  induction l generalizing n j with
  | nil => simp at hj
  | cons b l ih =>
    have hrest : ∀ j a, l[j]? = some a → ∀ x ∈ f a, number x = n + 1 + j + 1 := by
      intro j a hj x hx
      have hx := h (j + 1) a (by simpa using hj) x hx
      omega
    have hhead : ∀ x ∈ f b, number x = n + 1 := fun x hx => h 0 b rfl x hx
    rw [List.flatMap_cons, List.filter_append]
    cases j with
    | zero =>
      obtain rfl := Option.some.inj hj
      have hkeep : (f b).filter (fun x => number x = n + 0 + 1) = f b :=
        List.filter_eq_self.2 fun x hx => by simpa using hhead x hx
      have hdrop : (l.flatMap f).filter (fun x => number x = n + 0 + 1) = [] := by
        refine List.filter_eq_nil_iff.2 fun x hx => ?_
        obtain ⟨a, ha, hx⟩ := List.mem_flatMap.1 hx
        obtain ⟨i, hi⟩ := List.mem_iff_getElem?.1 ha
        have hnum := hrest i a hi x hx
        simp only [decide_eq_true_eq]
        omega
      rw [hkeep, hdrop, List.append_nil]
    | succ j =>
      have hdrop : (f b).filter (fun x => number x = n + (j + 1) + 1) = [] := by
        refine List.filter_eq_nil_iff.2 fun x hx => ?_
        have hnum := hhead x hx
        simp only [decide_eq_true_eq]
        omega
      have hnext := ih hrest (j := j) (by simpa using hj)
      rw [show n + 1 + j + 1 = n + (j + 1) + 1 by omega] at hnext
      rw [hdrop, hnext, List.nil_append]

namespace Daemon

variable {k : ChannelCapacities} {P : Profile} {config : RiskConfig} {recorder : Option (List UInt8)} {d : Daemon k}
  {acts : List DaemonAct} {os : List Obs}

/-- Nothing is on its way. -/
structure Idle (d : Daemon k) : Prop where
  readers : ∀ c reader, d.readers c = some reader → reader.Settled
  commands : d.commands.items = []
  pending : d.matching.pending = []
  returns : d.returns.items = []
  channel : d.feed.channel = []
  queues : ∀ id sub, d.feed.subscribers id = some sub → sub.queue.items = []

/-- The same, looked up among the connections and the subscribers there are. -/
def idleBelow (d : Daemon k) : Bool :=
  (List.range d.nextConnId).all (fun c => (d.readers c).all (fun reader => reader.Settled)) &&
  d.commands.items.isEmpty && d.matching.pending.isEmpty && d.returns.items.isEmpty && d.feed.channel.isEmpty &&
  (List.range d.feed.nextId).all (fun id => (d.feed.subscribers id).all (fun sub => sub.queue.items.isEmpty))

theorem idle_of_idleBelow (hf : d.Fresh) (hfeed : d.feed.Fresh) (h : d.idleBelow = true) : d.Idle := by
  simp only [idleBelow, Bool.and_eq_true, List.all_eq_true, List.mem_range, List.isEmpty_iff] at h
  obtain ⟨⟨⟨⟨⟨hreaders, hcmds⟩, hpending⟩, hreturns⟩, hchannel⟩, hqueues⟩ := h
  refine ⟨fun c reader hc => ?_, hcmds, hpending, hreturns, hchannel, fun id sub hid => ?_⟩
  · have hlt : c < d.nextConnId := by
      by_contra hle
      rw [hf c (Nat.le_of_not_lt hle)] at hc
      cases hc
    have hsettled := hreaders c hlt
    rw [hc] at hsettled
    simpa using hsettled
  · have hlt : id < d.feed.nextId := by
      by_contra hle
      rw [hfeed id (Nat.le_of_not_lt hle)] at hid
      cases hid
    have hempty := hqueues id hlt
    rw [hid] at hempty
    simpa using hempty

theorem Idle.settled (h : d.Idle) (c : ConnId) : ((d.readers c).getD .new).Settled := by
  cases hc : d.readers c with
  | none => trivial
  | some reader => exact h.readers c reader hc

/-- What carries the number zero is a reader's reject. -/
theorem Linearized.reject_of_zero {final : Matching} {outs : List Dispatched}
    (h : d.Linearized P config recorder os final outs) {x : ConnId × ℕ × Event} (hx : x ∈ d.returnedItems os)
    (hzero : x.2.1 = wireLevelRejectEngineSeq) : ∃ reason, x.2.2 = malformedReject reason := by
  have hmem : x ∈ (d.returnedItems os).filter (fun y => y.2.1 = wireLevelRejectEngineSeq ∧ y.1 = x.1) :=
    List.mem_filter.2 ⟨hx, by simp [hzero]⟩
  rw [h.rejects x.1] at hmem
  obtain ⟨reason, -, heq⟩ := List.mem_map.1 hmem
  exact ⟨reason, (congrArg (fun y => y.2.2) heq).symm⟩

theorem Idle.toSend (h : d.Idle) : d.toSend = [] := by
  unfold Daemon.toSend
  rw [h.pending]
  rfl

/-- At rest, what was dispatched, the readers' rejects apart, is what the commands taken send back. -/
theorem Linearized.dispatched_at_rest {final : Matching} {outs : List Dispatched}
    (h : d.Linearized P config recorder os final outs) (hidle : d.Idle) :
    (os.flatMap Obs.dispatchedItem).filter (fun x => x.2.1 ≠ wireLevelRejectEngineSeq) = MatchingThread.returned outs := by
  have hret := h.returns
  unfold Daemon.returnedItems at hret
  rw [hidle.returns, List.append_nil, hidle.toSend] at hret
  simpa [MatchingThread.returned] using hret.symm

/-- The commands taken, and those on the channel, were decoded. -/
theorem Linearized.decodable {final : Matching} {outs : List Dispatched} (h : d.Linearized P config recorder os final outs) :
    ∀ x ∈ takenCommands os ++ d.commands.items, x.2.Decodable := by
  rintro ⟨c, cmd⟩ hx
  have hmem : cmd ∈ commandsOf (handedBy c os) := by
    rw [← h.commands c]
    exact List.mem_map.2 ⟨(c, cmd), List.mem_filter.2 ⟨hx, by simp⟩, rfl⟩
  obtain ⟨r, hr, hrc⟩ := List.mem_filterMap.1 hmem
  cases r with
  | error reason => cases hrc
  | ok cmd' =>
    obtain rfl : cmd' = cmd := Option.some.inj hrc
    have hreads := h.reads c
    generalize (d.readers c).getD .new = st at hreads
    generalize bytesFrom c os = bytes at hreads
    generalize handedBy c os = rs at hreads hr
    cases hreads with
    | reading answered _ => exact answered.decodable hr
    | draining answered => exact answered.decodable hr
    | closed answered _ => exact answered.decodable hr
    | panicked answered _ => exact answered.decodable hr
    | desynced answered _ =>
      rcases List.mem_append.1 hr with hr | hr
      · exact answered.decodable hr
      · cases List.mem_singleton.1 hr

end Daemon

/-- **At rest, the threads together have done what each does alone, one after the other**, the matching thread not
having panicked and fewer than `2 ^ 64` commands taken: for every connection that sent no outbound frame, what
`run_reader` makes of its reads; and for the commands, in the order taken, what the matching thread makes of them.
Every item was dispatched, under a number that fits `EngineSeq`, and every event offered. -/
theorem at_rest_everything_delivered (P : Profile) (k : ChannelCapacities) (config : RiskConfig)
    (recorder : Option (List UInt8)) {acts : List DaemonAct} {d : Daemon k} {os : List Obs}
    (hrun : run (Daemon.step P) (.start k config recorder) acts = .ok (d, os)) (hidle : d.Idle)
    (hfew : (takenCommands os).length < 2 ^ 64) :
    (∃ outs, run (Matching.step P) (.new config recorder) (takenCommands os) = .ok (d.matching.matching, outs) ∧
      (os.flatMap Obs.dispatchedItem).filter (fun x => x.2.1 ≠ wireLevelRejectEngineSeq) = outs.flatMap Dispatched.returns ∧
      (∀ x ∈ os.flatMap Obs.dispatchedItem, x.2.1 < 2 ^ 64) ∧
      d.feed.emitted = outs.flatMap Dispatched.marketData) ∧
    ∀ c, ¬ Carries messageLen (Tagged outboundTags) (bytesFrom c os) →
      ∃ sent, Reader.runReader c .new ⟨[], []⟩ (chunksFrom c os) = .ok sent ∧
        (takenCommands os).filter (fun x => x.1 = c) = sent.commands ∧
        (os.flatMap Obs.dispatchedItem).filter (fun x => x.2.1 = wireLevelRejectEngineSeq ∧ x.1 = c) = sent.returns := by
  obtain ⟨final, outs, hlin⟩ := Daemon.linearized hrun
  have hitems : d.returnedItems os = os.flatMap Obs.dispatchedItem := by
    unfold Daemon.returnedItems
    rw [hidle.returns, List.append_nil]
  have htaken : takenCommands os ++ d.commands.items = takenCommands os := by rw [hidle.commands, List.append_nil]
  refine ⟨⟨outs, ?_, ?_, fun x hx => ?_, ?_⟩, fun c hin => ?_⟩
  · have hfinal : final = d.matching.matching := by
      have htable := hlin.table
      rw [hidle.pending] at htable
      change final = ⟨d.matching.matching.system, d.matching.matching.restingConn, d.matching.matching.recorder⟩
      rw [← hlin.system, ← hlin.recorder, ← show final.restingConn = d.matching.matching.restingConn from htable]
    exact hfinal ▸ hlin.run
  · exact hlin.dispatched_at_rest hidle
  · rw [← hitems] at hx
    exact hlin.numbers_lt hfew x (List.mem_append_left _ hx)
  · have hmd := hlin.marketData
    rw [hidle.toSend] at hmd
    simpa [MatchingThread.offered] using hmd.symm
  · have hreader := Daemon.run_reader c (Daemon.fresh_start k config recorder) hrun
    refine ⟨_, ReaderThread.runReader_eq_run c hreader (hidle.settled c) hin, ?_, ?_⟩
    · have hcmds := hlin.commands c
      rw [htaken] at hcmds
      have hpairs : (takenCommands os).filter (fun x => x.1 = c) =
          (((takenCommands os).filter (fun x => x.1 = c)).map Prod.snd).map (fun cmd => (c, cmd)) := by
        rw [List.map_map]
        refine (List.map_congr_left fun x hx => ?_).trans (List.map_id _) |>.symm
        obtain ⟨-, hx⟩ := List.mem_filter.1 hx
        exact Prod.ext (of_decide_eq_true hx).symm rfl
      rw [hpairs, hcmds, foldl_answer]
      rfl
    · rw [foldl_answer, ← hitems, hlin.rejects c]
      rfl

/-- The two clients' run ends at rest. -/
theorem at_rest_everything_delivered_two_clients :
    ∃ d os, run (Daemon.step .release) (.start .default .default (some [])) twoClients = .ok (d, os) ∧ d.Idle ∧
      (takenCommands os).length < 2 ^ 64 ∧
      (∃ outs, run (Matching.step .release) (.new .default (some [])) (takenCommands os) = .ok (d.matching.matching, outs) ∧
        (os.flatMap Obs.dispatchedItem).filter (fun x => x.2.1 ≠ wireLevelRejectEngineSeq) =
          outs.flatMap Dispatched.returns ∧
        (∀ x ∈ os.flatMap Obs.dispatchedItem, x.2.1 < 2 ^ 64) ∧
        d.feed.emitted = outs.flatMap Dispatched.marketData) ∧
      ∀ c, ¬ Carries messageLen (Tagged outboundTags) (bytesFrom c os) →
        ∃ sent, Reader.runReader c .new ⟨[], []⟩ (chunksFrom c os) = .ok sent ∧
          (takenCommands os).filter (fun x => x.1 = c) = sent.commands ∧
          (os.flatMap Obs.dispatchedItem).filter (fun x => x.2.1 = wireLevelRejectEngineSeq ∧ x.1 = c) = sent.returns := by
  obtain ⟨⟨d, os⟩, hrun, hbelow, hfew⟩ := exists_ok_of_decide
    (x := run (Daemon.step .release) (.start .default .default (some [])) twoClients)
    (p := fun r => r.1.idleBelow = true ∧ (takenCommands r.2).length < 2 ^ 64) (by decide +kernel)
  obtain ⟨hf, hfeed⟩ := Daemon.run_fresh (Daemon.fresh_start .default .default (some [])) (fun _ _ => rfl) hrun
  have hidle := Daemon.idle_of_idleBelow hf hfeed hbelow
  exact ⟨d, os, hrun, hidle, hfew, at_rest_everything_delivered .release .default .default (some []) hrun hidle hfew⟩

/-- The write to every item for a connection succeeded. -/
def WritesSucceed (c : ConnId) (os : List Obs) : Prop :=
  ∀ engineSeq event ok report, .dispatched c engineSeq event ok report ∈ os → ok = true

/-- A write to the connection that failed. -/
def Obs.writeFailed (c : ConnId) : Obs → Bool
  | .dispatched connId _ _ ok _ => decide (connId = c) && !ok
  | _ => false

theorem writesSucceed_of_all {c : ConnId} {os : List Obs} (h : os.all (fun o => !o.writeFailed c) = true) :
    WritesSucceed c os := by
  intro e ev ok report hmem
  have hone := List.all_eq_true.1 h _ hmem
  simpa [Obs.writeFailed] using hone

/-- With every write a success, all the items for a connection are written to it. -/
theorem itemsTo_dispatched (c : ConnId) (os : List Obs) (hok : WritesSucceed c os) :
    ((itemsTo c (os.flatMap Obs.toDispatcher)).takeWhile Prod.snd).map Prod.fst =
      ((os.flatMap Obs.dispatchedItem).filter (fun x => x.1 = c)).map Prod.snd := by
  have hall : ∀ x ∈ itemsTo c (os.flatMap Obs.toDispatcher), x.2 = true := by
    intro x hx
    obtain ⟨act, hact, hx⟩ := List.mem_filterMap.1 hx
    obtain ⟨o, ho, hact⟩ := List.mem_flatMap.1 hact
    cases o with
    | connected c' cloned =>
      cases cloned with
      | false => cases hact
      | true =>
        obtain rfl := List.mem_singleton.1 hact
        cases hx
    | dispatched c' e ev ok report =>
      obtain rfl := List.mem_singleton.1 hact
      by_cases hc : c' = c
      · subst hc
        obtain rfl : ((e, ev), ok) = x := by simpa using hx
        exact hok e ev ok report ho
      · simp [hc] at hx
    | _ => cases hact
  rw [List.takeWhile_eq_self_iff.2 hall, itemsTo_items]

/-- The turn of one command of a run, and its acknowledgement. -/
theorem Matching.run_acknowledged {P : Profile} (hP : P.Total) {config : RiskConfig} {recorder : Option (List UInt8)}
    {inputs : List (ConnId × Command)} (hin : ∀ x ∈ inputs, x.2.Decodable) {t : Matching} {outs : List Dispatched}
    (hrun : run (Matching.step P) (.new config recorder) inputs = .ok (t, outs)) {j : ℕ} {c : ConnId} {cmd : Command}
    (hj : inputs[j]? = some (c, cmd)) (horder : (commandSelfId cmd).isSome) :
    ∃ out ev, outs[j]? = some out ∧ out.returns.filter (fun x => x.2.2.acknowledges cmd) = [(c, j + 1, ev)] := by
  obtain ⟨id, hid⟩ := Option.isSome_iff_exists.1 horder
  obtain ⟨hlt, hget⟩ := List.getElem?_eq_some_iff.1 hj
  have hsplit : inputs = inputs.take j ++ (c, cmd) :: inputs.drop (j + 1) := by
    rw [← hget, ← List.drop_eq_getElem_cons hlt, List.take_append_drop]
  have hrun' := hrun
  rw [hsplit] at hrun'
  obtain ⟨t₁, outs₁, outs₂, h1, h2, rfl⟩ := run_append_inv hrun'
  obtain ⟨t₂, out, outs₃, hstep, -, rfl⟩ := run_cons_inv h2
  have hlen : outs₁.length = j := by
    rw [run_length h1, List.length_take]
    omega
  have hout : (outs₁ ++ out :: outs₃)[j]? = some out := by
    rw [List.getElem?_append_right (by omega), hlen, Nat.sub_self]
    rfl
  obtain ⟨r, hs, -⟩ := tracks_run hP (fun x hx => hin x (List.mem_of_mem_take hx)) h1
  obtain ⟨ev, hev⟩ := step_acknowledged hP hs (hin _ (List.mem_of_getElem? hj)) hid hstep
  refine ⟨out, ev, hout, ?_⟩
  -- its number is its place in the order taken
  have hmem : (c, t₁.system.engineSeq + 1, ev) ∈ out.returns := by
    have hin : (c, t₁.system.engineSeq + 1, ev) ∈ out.returns.filter (fun x => x.2.2.acknowledges cmd) := by
      rw [hev]
      exact List.mem_singleton_self _
    exact List.mem_of_mem_filter hin
  have hnum : t₁.system.engineSeq + 1 = 0 + j + 1 := MatchingThread.run_numbers hrun hout _ hmem
  rw [hev, hnum, Nat.zero_add]

/-- **Every new order, cancel and amend taken is acknowledged once, on the connection it came from**, the matching
thread not having panicked and fewer than `2 ^ 64` commands taken. At rest, for the `j`th command it took, if it is
about an order, one of all the items dispatched carries its number and acknowledges it, and it went to the sender; if
no write to the sender failed, one of the reports written there is that item. -/
theorem orders_acknowledged_once {P : Profile} (hP : P.Total) (k : ChannelCapacities) (config : RiskConfig)
    (recorder : Option (List UInt8)) {acts : List DaemonAct} {d : Daemon k} {os : List Obs}
    (hrun : run (Daemon.step P) (.start k config recorder) acts = .ok (d, os)) (hidle : d.Idle)
    (hfew : (takenCommands os).length < 2 ^ 64) {j : ℕ} {c : ConnId} {cmd : Command}
    (htaken : (takenCommands os)[j]? = some (c, cmd)) (horder : (commandSelfId cmd).isSome) :
    j + 1 < 2 ^ 64 ∧ ∃ ev,
      (os.flatMap Obs.dispatchedItem).filter (fun x => x.2.1 = j + 1 ∧ x.2.2.acknowledges cmd) = [(c, j + 1, ev)] ∧
      (WritesSucceed c os → ∃ r, r.item = (j + 1, ev) ∧
        (reportsTo c (os.flatMap Obs.fromDispatcher)).filter
          (fun r => r.engineSeq = j + 1 ∧ r.event.acknowledges cmd) = [r]) := by
  obtain ⟨hlt, -⟩ := List.getElem?_eq_some_iff.1 htaken
  obtain ⟨final, outs, hlin⟩ := Daemon.linearized hrun
  obtain ⟨out, ev, hout, hev⟩ := Matching.run_acknowledged hP
    (fun x hx => hlin.decodable x (List.mem_append_left _ hx)) hlin.run htaken horder
  have hret : outs.flatMap Dispatched.returns =
      (os.flatMap Obs.dispatchedItem).filter (fun x => x.2.1 ≠ wireLevelRejectEngineSeq) :=
    (hlin.dispatched_at_rest hidle).symm
  have hnumbered : (outs.flatMap Dispatched.returns).filter (fun x => x.2.1 = 0 + j + 1) = out.returns :=
    filter_numbered (fun i o ho x hx => MatchingThread.run_numbers hlin.run ho x hx) hout
  have hone : (os.flatMap Obs.dispatchedItem).filter (fun x => x.2.1 = j + 1 ∧ x.2.2.acknowledges cmd) =
      [(c, j + 1, ev)] := by
    rw [← hev, ← hnumbered, hret, List.filter_filter, List.filter_filter]
    refine List.filter_congr fun x _ => ?_
    by_cases hx : x.2.1 = j + 1
    · simp [hx, wireLevelRejectEngineSeq]
    · simp [hx]
  refine ⟨by omega, ev, hone, fun hok => ?_⟩
  -- the reports written to the sender are the items for it
  have hstream := (Daemon.run_stream hrun c).items
  rw [itemsTo_dispatched c os hok] at hstream
  have hmap : ((reportsTo c (os.flatMap Obs.fromDispatcher)).filter
      (fun r => r.engineSeq = j + 1 ∧ r.event.acknowledges cmd)).map Report.item = [(j + 1, ev)] := by
    have hcomm : ((reportsTo c (os.flatMap Obs.fromDispatcher)).filter
        (fun r => r.engineSeq = j + 1 ∧ r.event.acknowledges cmd)).map Report.item =
        ((reportsTo c (os.flatMap Obs.fromDispatcher)).map Report.item).filter
          (fun x => x.1 = j + 1 ∧ x.2.acknowledges cmd) := by
      rw [List.filter_map]
      rfl
    have hboth : ((os.flatMap Obs.dispatchedItem).filter (fun x => x.1 = c)).filter
        (fun x => x.2.1 = j + 1 ∧ x.2.2.acknowledges cmd) = [(c, j + 1, ev)] := by
      rw [List.filter_filter]
      have hswap : (os.flatMap Obs.dispatchedItem).filter
          (fun x => decide (x.2.1 = j + 1 ∧ x.2.2.acknowledges cmd) && decide (x.1 = c)) =
          ((os.flatMap Obs.dispatchedItem).filter (fun x => x.2.1 = j + 1 ∧ x.2.2.acknowledges cmd)).filter
            (fun x => x.1 = c) := by
        rw [List.filter_filter]
        exact List.filter_congr fun x _ => Bool.and_comm _ _
      rw [hswap, hone]
      simp
    rw [hcomm, hstream, List.filter_map]
    change List.map Prod.snd (((os.flatMap Obs.dispatchedItem).filter (fun x => x.1 = c)).filter
      (fun x => x.2.1 = j + 1 ∧ x.2.2.acknowledges cmd)) = _
    rw [hboth]
    rfl
  obtain ⟨r, hr, hitem⟩ := List.map_eq_singleton_iff.1 hmap
  exact ⟨r, hitem, hr⟩

/-- The second client's order, the second command taken: accepted on its own connection. -/
theorem orders_acknowledged_once_two_clients :
    ∃ d os, run (Daemon.step .release) (.start .default .default (some [])) twoClients = .ok (d, os) ∧ d.Idle ∧
      (takenCommands os).length < 2 ^ 64 ∧ (takenCommands os)[1]? = some (2, .newOrder 2 1 .buy 100 3 .limit .gtc 0) ∧
      2 < 2 ^ 64 ∧ ∃ ev, (os.flatMap Obs.dispatchedItem).filter
          (fun x => x.2.1 = 2 ∧ x.2.2.acknowledges (.newOrder 2 1 .buy 100 3 .limit .gtc 0)) = [(2, 2, ev)] ∧
        (WritesSucceed 2 os → ∃ r, r.item = (2, ev) ∧ (reportsTo 2 (os.flatMap Obs.fromDispatcher)).filter
          (fun r => r.engineSeq = 2 ∧ r.event.acknowledges (.newOrder 2 1 .buy 100 3 .limit .gtc 0)) = [r]) := by
  obtain ⟨⟨d, os⟩, hrun, hbelow, hfew, htaken⟩ := exists_ok_of_decide
    (x := run (Daemon.step .release) (.start .default .default (some [])) twoClients)
    (p := fun r => r.1.idleBelow = true ∧ (takenCommands r.2).length < 2 ^ 64 ∧
      (takenCommands r.2)[1]? = some (2, .newOrder 2 1 .buy 100 3 .limit .gtc 0)) (by decide +kernel)
  obtain ⟨hf, hfeed⟩ := Daemon.run_fresh (Daemon.fresh_start .default .default (some [])) (fun _ _ => rfl) hrun
  have hidle := Daemon.idle_of_idleBelow hf hfeed hbelow
  exact ⟨d, os, hrun, hidle, hfew, htaken,
    orders_acknowledged_once Profile.release_total .default .default (some []) hrun hidle hfew htaken rfl⟩

end MatchingEngine
