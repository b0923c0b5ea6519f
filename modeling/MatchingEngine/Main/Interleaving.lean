import MatchingEngine.Bin.Daemon
import MatchingEngine.Main.Gaps
import MatchingEngine.Main.Streams

/-!
# Any interleaving is one order of commands

Readers, matching thread, dispatcher and market-data threads run in any order, and yet what the
clients and the recording see is what one thread would have made of some order of the commands: the
order in which the matching thread took them (`interleavings_linearize`). Each connection's own
commands stand in that order as the client sent them.

The number zero tells the two kinds of returned items apart: a reader's rejects carry it, and nothing
the matching thread sends does, as long as `EngineSeq` has not run out, that is for fewer than `2 ^ 64`
commands.

All of this is about the program up to the first panic of its matching thread, if there is one
(`Bin/Daemon`): commands sent to a thread that is gone are lost (`Main/Aftermath`).

* `handed_commands`, `handed_rejects`: what the readers put on the two channels, by connection.
* `Linearized`: the daemon at any moment, against the one order.
-/

namespace MatchingEngine

/-- The bytes read from a connection. -/
def bytesFrom (c : ConnId) (os : List Obs) : List UInt8 := (os.flatMap (Obs.toReader c)).flatMap ReadAct.bytes

/-- What its reader handed over. -/
def handedBy (c : ConnId) (os : List Obs) : List (Except RejectReason Command) :=
  (os.flatMap (Obs.fromReader c)).filterMap id

/-- The commands the matching thread took. -/
def takenCommands (os : List Obs) : List (ConnId × Command) := os.flatMap Obs.takenCommand

def commandsOf (rs : List (Except RejectReason Command)) : List Command :=
  rs.filterMap fun
    | .ok cmd => some cmd
    | .error _ => none

def rejectsOf (rs : List (Except RejectReason Command)) : List RejectReason :=
  rs.filterMap fun
    | .ok _ => none
    | .error reason => some reason

/-- The reject of a frame that never became a command. -/
def wireReject (c : ConnId) (reason : RejectReason) : ConnId × ℕ × Event :=
  (c, wireLevelRejectEngineSeq, malformedReject reason)

theorem handedBy_cons (c : ConnId) (o : Obs) (os : List Obs) :
    handedBy c (o :: os) = (o.fromReader c).filterMap id ++ handedBy c os := by
  unfold handedBy
  rw [List.flatMap_cons, List.filterMap_append]

/-- The commands of one connection on the command channel. -/
theorem handed_commands (c : ConnId) (os : List Obs) :
    ((os.flatMap Obs.handedCommand).filter (fun x => x.1 = c)).map Prod.snd = commandsOf (handedBy c os) := by
  induction os with
  | nil => rfl
  | cons o os ih =>
    rw [List.flatMap_cons, List.filter_append, List.map_append, ih, handedBy_cons]
    unfold commandsOf
    rw [List.filterMap_append]
    congr 1
    cases o with
    | turned c' handed =>
      by_cases hc : c' = c
      · rcases handed with _ | (_ | _) <;> simp [Obs.handedCommand, Obs.fromReader, hc]
      · rcases handed with _ | (_ | _) <;> simp [Obs.handedCommand, Obs.fromReader, hc]
    | read c' chunk =>
      by_cases hc : c' = c
      · simp [Obs.handedCommand, Obs.fromReader, hc]
      · simp [Obs.handedCommand, Obs.fromReader, hc]
    | _ => rfl

/-- The rejects of one connection's reader on the return channel, told by their number. -/
theorem handed_rejects (c : ConnId) {os : List Obs}
    (hsent : ∀ x ∈ MatchingThread.returned (os.flatMap Obs.fromMatching), x.2.1 ≠ wireLevelRejectEngineSeq) :
    (os.flatMap Obs.returnedItem).filter (fun x => x.2.1 = wireLevelRejectEngineSeq ∧ x.1 = c) =
      (rejectsOf (handedBy c os)).map (wireReject c) := by
  induction os with
  | nil => rfl
  | cons o os ih =>
    rw [List.flatMap_cons, MatchingThread.returned_append, List.forall_mem_append] at hsent
    rw [List.flatMap_cons, List.filter_append, ih hsent.2, handedBy_cons]
    unfold rejectsOf
    rw [List.filterMap_append, List.map_append]
    congr 1
    cases o with
    | turned c' handed =>
      by_cases hc : c' = c
      · rcases handed with _ | (_ | _) <;> simp [Obs.returnedItem, Obs.fromReader, hc, wireReject]
      · rcases handed with _ | (_ | _) <;> simp [Obs.returnedItem, Obs.fromReader, hc]
    | read c' chunk =>
      by_cases hc : c' = c
      · simp [Obs.returnedItem, Obs.fromReader, hc]
      · simp [Obs.returnedItem, Obs.fromReader, hc]
    | sent out =>
      simp only [Obs.fromReader, List.filterMap_nil, List.map_nil]
      refine List.filter_eq_nil_iff.2 fun x hx => ?_
      have hx : x ∈ out.returns := hx
      have hne := hsent.1 x (by simpa [MatchingThread.returned, Obs.fromMatching] using hx)
      simp [hne]
    | _ => rfl

/-- What the matching thread put on the return channel, told by its number. -/
theorem sent_items {os : List Obs}
    (hsent : ∀ x ∈ MatchingThread.returned (os.flatMap Obs.fromMatching), x.2.1 ≠ wireLevelRejectEngineSeq) :
    (os.flatMap Obs.returnedItem).filter (fun x => x.2.1 ≠ wireLevelRejectEngineSeq) =
      MatchingThread.returned (os.flatMap Obs.fromMatching) := by
  induction os with
  | nil => rfl
  | cons o os ih =>
    rw [List.flatMap_cons, MatchingThread.returned_append, List.forall_mem_append] at hsent
    rw [List.flatMap_cons, List.filter_append, ih hsent.2, List.flatMap_cons, MatchingThread.returned_append]
    congr 1
    cases o with
    | turned c' handed =>
      rcases handed with _ | (_ | _) <;> simp [Obs.returnedItem, Obs.fromMatching, MatchingThread.returned]
    | sent out =>
      have hout : MatchingThread.returned (Obs.fromMatching (.sent out)) = out.returns := by
        simp [MatchingThread.returned, Obs.fromMatching]
      rw [hout] at hsent ⊢
      exact List.filter_eq_self.2 fun x hx => by simpa using hsent.1 x hx
    | taken c' cmd => rfl
    | _ => rfl

/-- The events offered to the market-data channel are those the matching thread sent there. -/
theorem offered_events (os : List Obs) (hfed : ∀ act, .fed act ∈ os → act.offered = none) :
    (os.flatMap Obs.toFeed).filterMap FeedAct.offered = MatchingThread.offered (os.flatMap Obs.fromMatching) := by
  induction os with
  | nil => rfl
  | cons o os ih =>
    rw [List.flatMap_cons, List.filterMap_append, ih fun act hact => hfed act (List.mem_cons_of_mem _ hact),
      List.flatMap_cons, MatchingThread.offered_append]
    congr 1
    cases o with
    | sent out =>
      have hall : (List.map FeedAct.offer out.marketData).filterMap FeedAct.offered = out.marketData := by
        rw [List.filterMap_map]
        exact List.filterMap_some
      simpa [Obs.toFeed, Obs.fromMatching, MatchingThread.offered] using hall
    | fed act =>
      have hnone := hfed act List.mem_cons_self
      simp [Obs.toFeed, Obs.fromMatching, MatchingThread.offered, hnone]
    | _ => rfl

namespace Daemon

variable {k : ChannelCapacities} {P : Profile} {config : RiskConfig} {recorder : Option (List UInt8)} {d : Daemon k}
  {acts : List DaemonAct} {os : List Obs}

/-- Only the matching thread offers market data. -/
theorem run_fed {s : Daemon k} (h : run (step P) s acts = .ok (d, os)) : ∀ act, .fed act ∈ os → act.offered = none := by
  refine run_history (fun os (_ : Daemon k) => ∀ act, Obs.fed act ∈ os → act.offered = none)
    (fun os d act d' o ih h fact hfact => ?_) (by simp) h
  rcases List.mem_append.1 hfact with hfact | hfact
  · exact ih fact hfact
  · obtain rfl := List.mem_singleton.1 hfact
    cases step_cases h with
    | fed own _ => rcases own with ⟨-, rfl⟩ | ⟨-, rfl⟩ | ⟨_, _, -, rfl⟩ <;> rfl

/-- What the matching thread is still to send of the command it is at. -/
def toSend (d : Daemon k) : List Dispatched :=
  MatchingThread.sendsAll d.matching.connId d.matching.selfId d.matching.matching.restingConn d.matching.pending

/-- What was put on the return channel: what was taken off it, and what it holds. -/
def returnedItems (d : Daemon k) (os : List Obs) : List (ConnId × ℕ × Event) :=
  os.flatMap Obs.dispatchedItem ++ d.returns.items

/-- What was sent back so far, and what is still to be sent of the command at hand. -/
def sentItems (d : Daemon k) (os : List Obs) : List (ConnId × ℕ × Event) :=
  d.returnedItems os ++ MatchingThread.returned d.toSend

/-- **The daemon at any moment** is a single thread that took the commands in the order `takenCommands os`:
it ended in `final` and sent `outs`. -/
structure Linearized (P : Profile) (config : RiskConfig) (recorder : Option (List UInt8)) (d : Daemon k) (os : List Obs)
    (final : Matching) (outs : List Dispatched) : Prop where
  /-- Each reader has answered the frames of its own stream, in order. -/
  reads : ∀ c, ReaderThread.Reads (bytesFrom c os) ((d.readers c).getD .new) (handedBy c os)
  /-- Each connection's commands reach the matching thread in the order sent, none lost and none twice. -/
  commands : ∀ c, ((takenCommands os ++ d.commands.items).filter (fun x => x.1 = c)).map Prod.snd =
    commandsOf (handedBy c os)
  run : run (Matching.step P) (.new config recorder) (takenCommands os) = .ok (final, outs)
  system : final.system = d.matching.matching.system
  recorder : final.recorder = d.matching.matching.recorder
  table : final.restingConn = (d.matching.pending.map Prod.snd).foldl
    (Matching.after d.matching.connId d.matching.selfId) d.matching.matching.restingConn
  /-- What the commands send back is on the return channel, in order, but for what is still to be sent. -/
  returns : MatchingThread.returned outs =
    (d.returnedItems os).filter (fun x => x.2.1 ≠ wireLevelRejectEngineSeq) ++ MatchingThread.returned d.toSend
  /-- And between these the rejects of each reader, in order. -/
  rejects : ∀ c, (d.returnedItems os).filter (fun x => x.2.1 = wireLevelRejectEngineSeq ∧ x.1 = c) =
    (rejectsOf (handedBy c os)).map (wireReject c)
  /-- The market data is offered in order. -/
  marketData : MatchingThread.offered outs = d.feed.emitted ++ MatchingThread.offered d.toSend

theorem fresh_start (k : ChannelCapacities) (config : RiskConfig) (recorder : Option (List UInt8)) :
    (start k config recorder).Fresh := fun _ _ => rfl

theorem takenCommands_eq (os : List Obs) :
    takenCommands os = (os.flatMap Obs.toMatching).filterMap MatchAct.taken := by
  induction os with
  | nil => rfl
  | cons o os ih =>
    unfold takenCommands at ih ⊢
    rw [List.flatMap_cons, List.flatMap_cons, List.filterMap_append, ih]
    congr 1
    cases o <;> rfl

/-- **Whatever order the threads run in, the daemon is linearized.** -/
theorem linearized (h : run (step P) (start k config recorder) acts = .ok (d, os)) :
    ∃ final outs, Linearized P config recorder d os final outs := by
  obtain ⟨final, outs, hseq⟩ := MatchingThread.run_sequential (run_matching h)
  -- nothing the matching thread sends carries the number zero
  have hsent : ∀ x ∈ MatchingThread.returned (os.flatMap Obs.fromMatching), x.2.1 ≠ wireLevelRejectEngineSeq := by
    intro x hx
    have hmem : x ∈ MatchingThread.returned outs := by
      rw [hseq.returns]
      exact List.mem_append_left _ hx
    obtain ⟨out, hout, hxout⟩ := List.mem_flatMap.1 hmem
    obtain ⟨j, hj⟩ := List.mem_iff_getElem?.1 hout
    have hnum := MatchingThread.run_numbers hseq.run hj x hxout
    rw [hnum]
    exact Nat.succ_ne_zero _
  have hret := run_returns h
  rw [show (start k config recorder).returns.items = [] from rfl, List.nil_append] at hret
  have hcmds := run_commands h
  rw [show (start k config recorder).commands.items = [] from rfl, List.nil_append] at hcmds
  obtain ⟨us, hfeed⟩ := run_feed h
  have hemitted := Feed.run_emitted hfeed
  refine ⟨final, outs, ⟨fun c => ReaderThread.run_reads (run_reader c (fresh_start k config recorder) h),
    fun c => ?_, ?_, hseq.system, hseq.recorder, hseq.table, ?_, fun c => ?_, ?_⟩⟩
  · rw [← handed_commands, hcmds]
    rfl
  · rw [takenCommands_eq]
    exact hseq.run
  · unfold returnedItems
    rw [← hret, sent_items hsent]
    exact hseq.returns
  · unfold returnedItems
    rw [← hret]
    exact handed_rejects c hsent
  · rw [hemitted, show (start k config recorder).feed.emitted = [] from rfl, List.nil_append,
      offered_events os (run_fed h)]
    exact hseq.marketData

/-- **No number is above the number of commands taken.** -/
theorem Linearized.numbers_le {final : Matching} {outs : List Dispatched}
    (h : d.Linearized P config recorder os final outs) : ∀ x ∈ d.sentItems os, x.2.1 ≤ (takenCommands os).length := by
  have hsent : ∀ x ∈ MatchingThread.returned outs, x.2.1 ≤ (takenCommands os).length := by
    intro x hx
    obtain ⟨out, hout, hxout⟩ := List.mem_flatMap.1 hx
    obtain ⟨j, hj⟩ := List.mem_iff_getElem?.1 hout
    obtain ⟨hlt, -⟩ := List.getElem?_eq_some_iff.1 hj
    have hnum : x.2.1 = 0 + j + 1 := MatchingThread.run_numbers h.run hj x hxout
    have hlen := run_length h.run
    omega
  intro x hx
  rcases List.mem_append.1 hx with hx | hx
  · by_cases hzero : x.2.1 = wireLevelRejectEngineSeq
    · rw [hzero]
      exact Nat.zero_le _
    · refine hsent x ?_
      rw [h.returns]
      exact List.mem_append_left _ (List.mem_filter.2 ⟨hx, by simpa using hzero⟩)
  · refine hsent x ?_
    rw [h.returns]
    exact List.mem_append_right _ hx

/-- So none has wrapped around. -/
theorem Linearized.numbers_lt {final : Matching} {outs : List Dispatched}
    (h : d.Linearized P config recorder os final outs) (hfew : (takenCommands os).length < 2 ^ 64) :
    ∀ x ∈ d.sentItems os, x.2.1 < 2 ^ 64 :=
  fun x hx => Nat.lt_of_le_of_lt (h.numbers_le x hx) hfew

/-! ### Every item finds its connection registered -/

/-- What the dispatcher did about a connection begins with its registration, the only one. -/
def RegisteredFirst (c : ConnId) (acts : List DispatchAct) : Prop :=
  (∀ act ∈ acts, act.conn ≠ c) ∨ ∃ rest, acts.filter (fun act => act.conn = c) = .register c :: rest ∧ .register c ∉ rest

theorem RegisteredFirst.item {c : ConnId} {acts : List DispatchAct} (h : RegisteredFirst c acts) {c' : ConnId}
    {engineSeq : ℕ} {event : Event} {ok : Bool} (hreg : .register c' ∈ acts) :
    RegisteredFirst c (acts ++ [.item c' engineSeq event ok]) := by
  by_cases hc : c' = c
  · subst hc
    rcases h with h | ⟨rest, hfilter, hrest⟩
    · exact absurd rfl (h _ hreg)
    · refine Or.inr ⟨rest ++ [.item c' engineSeq event ok], ?_, by simpa using hrest⟩
      rw [List.filter_append, hfilter]
      simp [DispatchAct.conn]
  · rcases h with h | ⟨rest, hfilter, hrest⟩
    · refine Or.inl fun act hact => ?_
      rcases List.mem_append.1 hact with hact | hact
      · exact h act hact
      · rw [List.mem_singleton.1 hact]
        exact hc
    · refine Or.inr ⟨rest, ?_, hrest⟩
      rw [List.filter_append, hfilter]
      simp [DispatchAct.conn, hc]

theorem RegisteredFirst.register {c c' : ConnId} {acts : List DispatchAct} (h : RegisteredFirst c acts)
    (hnew : ∀ act ∈ acts, act.conn ≠ c') : RegisteredFirst c (acts ++ [.register c']) := by
  by_cases hc : c' = c
  · subst hc
    refine Or.inr ⟨[], ?_, by simp⟩
    rw [List.filter_append, List.filter_eq_nil_iff.2 (by simpa using hnew)]
    simp [DispatchAct.conn]
  · rcases h with h | ⟨rest, hfilter, hrest⟩
    · refine Or.inl fun act hact => ?_
      rcases List.mem_append.1 hact with hact | hact
      · exact h act hact
      · rw [List.mem_singleton.1 hact]
        exact hc
    · refine Or.inr ⟨rest, ?_, hrest⟩
      rw [List.filter_append, hfilter]
      simp [DispatchAct.conn, hc]

/-- Every connection a thread or a channel knows of is in `S`. -/
structure Known (S : ConnId → Prop) (d : Daemon k) : Prop where
  readers : ∀ c reader, d.readers c = some reader → S c
  commands : ∀ x ∈ d.commands.items, S x.1
  current : d.matching.pending ≠ [] → S d.matching.connId
  table : ∀ id c, d.matching.matching.restingConn.lookup id = some c → S c
  returns : ∀ x ∈ d.returns.items, S x.1

theorem Known.mono {S S' : ConnId → Prop} (h : Known S d) (hS : ∀ c, S c → S' c) : Known S' d :=
  ⟨fun c r hc => hS c (h.readers c r hc), fun x hx => hS _ (h.commands x hx), fun hp => hS _ (h.current hp),
    fun id c hc => hS c (h.table id c hc), fun x hx => hS _ (h.returns x hx)⟩

/-- A connection an event goes to is the sender's or in the table. -/
theorem destination_known {S : ConnId → Prop} {connId : ConnId} {selfId : Option Key} {table : RestingConn} (hc : S connId)
    (ht : ∀ id c, table.lookup id = some c → S c) (ev : Event) : S (Matching.destination connId selfId table ev) := by
  unfold Matching.destination
  split
  · exact hc
  · next id _ =>
    unfold Matching.route
    split
    · exact hc
    · cases hl : table.lookup id with
      | none => exact hc
      | some c => exact ht id c hl

/-- So are the connections in the table after it. -/
theorem after_known {S : ConnId → Prop} {connId : ConnId} {selfId : Option Key} {table : RestingConn} (hc : S connId)
    (ht : ∀ id c, table.lookup id = some c → S c) (ev : Event) :
    ∀ id c, (Matching.after connId selfId table ev).lookup id = some c → S c := by
  have hdest : S (Matching.destination connId selfId table ev) := destination_known hc ht ev
  unfold Matching.destination at hdest
  unfold Matching.after
  split
  · exact ht
  · next id hid =>
    rw [hid] at hdest
    have hinsert : ∀ id' c, (table.insert id (Matching.route connId selfId table id)).lookup id' = some c → S c := by
      intro id' c hl
      by_cases he : id' = id
      · subst he
        rw [Finmap.lookup_insert] at hl
        exact Option.some.inj hl ▸ hdest
      · rw [Finmap.lookup_insert_of_ne _ he] at hl
        exact ht id' c hl
    have herase : ∀ id' c, (table.erase id).lookup id' = some c → S c := by
      intro id' c hl
      by_cases he : id' = id
      · subst he
        rw [Finmap.lookup_erase] at hl
        cases hl
      · rw [Finmap.lookup_erase_ne he] at hl
        exact ht id' c hl
    unfold Matching.settle
    split
    · split
      · exact hinsert
      · exact ht
    · split
      · exact hinsert
      · exact herase
    · exact herase
    · exact hinsert
    · exact ht

/-- **One step of a thread** brings no connection in that was not known. -/
theorem Known.step {S : ConnId → Prop} {d' : Daemon k} {act : DaemonAct} {o : Obs} (h : Known S d)
    (hstep : d.step P act = .ok (d', o)) (hnew : ∀ c, o = .connected c true → S c) : Known S d' := by
  have hupdate : ∀ {c : ConnId} {reader reader' : ReaderThread}, d.readers c = some reader →
      ∀ c' r, Function.update d.readers c (some reader') c' = some r → S c' := by
    intro c reader reader' hc c' r hr
    by_cases he : c' = c
    · subst he
      exact h.readers c' reader hc
    · rw [Function.update_of_ne he] at hr
      exact h.readers c' r hr
  cases step_cases hstep with
  | connected _ =>
    refine ⟨fun c r hr => ?_, h.commands, h.current, h.table, h.returns⟩
    by_cases he : c = d.nextConnId
    · subst he
      exact hnew _ rfl
    · exact h.readers c r ((Function.update_of_ne he _ _).symm.trans hr)
  | dropped => exact ⟨h.readers, h.commands, h.current, h.table, h.returns⟩
  | read here _ => exact ⟨hupdate here, h.commands, h.current, h.table, h.returns⟩
  | turned here _ => exact ⟨hupdate here, h.commands, h.current, h.table, h.returns⟩
  | command here _ sends =>
    refine ⟨hupdate here, fun x hx => ?_, h.current, h.table, h.returns⟩
    rw [Chan.send_eq_some sends] at hx
    rcases List.mem_append.1 hx with hx | hx
    · exact h.commands x hx
    · rw [List.mem_singleton.1 hx]
      exact h.readers _ _ here
  | reject here _ sends =>
    refine ⟨hupdate here, h.commands, h.current, h.table, fun x hx => ?_⟩
    rw [Chan.send_eq_some sends] at hx
    rcases List.mem_append.1 hx with hx | hx
    · exact h.returns x hx
    · rw [List.mem_singleton.1 hx]
      exact h.readers _ _ here
  | taken recvs takes =>
    have hall := h.commands
    rw [Chan.recv_eq_some recvs, List.forall_mem_cons] at hall
    rcases MatchingThread.step_cases takes with ⟨_, _, _, ha, _, _, ht', _⟩ | ⟨_, _, ha, _⟩
    · cases ha
      refine ⟨h.readers, hall.2, fun _ => ?_, fun id c hl => ?_, h.returns⟩
      · rw [ht']
        exact hall.1
      · rw [ht'] at hl
        exact h.table id c hl
    · cases ha
  | sent emits sends _ =>
    rcases MatchingThread.step_cases emits with ⟨_, _, _, ha, _⟩ | ⟨x, pending, -, hp, rfl, rfl⟩
    · cases ha
    · have hconn : S d.matching.connId := h.current (by rw [hp]; simp)
      refine ⟨h.readers, h.commands, fun _ => hconn, after_known hconn h.table x.2, fun y hy => ?_⟩
      rw [Chan.sendAll_eq_some sends] at hy
      rcases List.mem_append.1 hy with hy | hy
      · exact h.returns y hy
      · unfold MatchingThread.sends at hy
        split at hy
        · cases hy
        · rw [List.mem_singleton.1 hy]
          exact destination_known hconn h.table x.2
  | dispatched recvs _ =>
    have hall := h.returns
    rw [Chan.recv_eq_some recvs, List.forall_mem_cons] at hall
    exact ⟨h.readers, h.commands, h.current, h.table, hall.2⟩
  | fed _ _ => exact ⟨h.readers, h.commands, h.current, h.table, h.returns⟩

/-- **Every item finds its connection registered**, once and for all. -/
theorem run_registered (h : run (step P) (start k config recorder) acts = .ok (d, os)) (c : ConnId) :
    RegisteredFirst c (os.flatMap Obs.toDispatcher) := by
  have hinv := run_history (fun os (d : Daemon k) =>
    Known (fun c => DispatchAct.register c ∈ os.flatMap Obs.toDispatcher) d ∧
    (∀ act ∈ os.flatMap Obs.toDispatcher, act.conn < d.nextConnId) ∧
    ∀ c, RegisteredFirst c (os.flatMap Obs.toDispatcher)) (fun os d act d' o ih h => ?_) ?_ h
  · exact hinv.2.2 c
  · obtain ⟨hknown, hold, hfirst⟩ := ih
    have hknown' : Known (fun c => DispatchAct.register c ∈ (os ++ [o]).flatMap Obs.toDispatcher) d' := by
      refine (hknown.mono fun c hc => ?_).step h fun c ho => ?_
      · rw [List.flatMap_append]
        exact List.mem_append_left _ hc
      · rw [List.flatMap_append, ho]
        exact List.mem_append_right _ (by simp [Obs.toDispatcher])
    refine ⟨hknown', ?_⟩
    rw [List.flatMap_append, List.flatMap_singleton]
    have hquiet : o.toDispatcher = [] → d'.nextConnId = d.nextConnId →
        (∀ act ∈ os.flatMap Obs.toDispatcher ++ o.toDispatcher, act.conn < d'.nextConnId) ∧
        ∀ c, RegisteredFirst c (os.flatMap Obs.toDispatcher ++ o.toDispatcher) := by
      intro hnil hid
      rw [hnil, List.append_nil, hid]
      exact ⟨hold, hfirst⟩
    cases step_cases h with
    | connected _ =>
      refine ⟨fun act hact => ?_, fun c => (hfirst c).register fun act hact => Nat.ne_of_lt (hold act hact)⟩
      rcases List.mem_append.1 hact with hact | hact
      · exact Nat.lt_succ_of_lt (hold act hact)
      · rw [List.mem_singleton.1 hact]
        exact Nat.lt_succ_self _
    | dropped =>
      simp only [Obs.toDispatcher, List.append_nil]
      exact ⟨fun act hact => Nat.lt_succ_of_lt (hold act hact), hfirst⟩
    | @dispatched c' engineSeq event ok _ _ _ recvs _ =>
      have hreg := hknown.returns (c', engineSeq, event) (by rw [Chan.recv_eq_some recvs]; exact List.mem_cons_self)
      refine ⟨fun act hact => ?_, fun c => (hfirst c).item hreg⟩
      rcases List.mem_append.1 hact with hact | hact
      · exact hold act hact
      · rw [List.mem_singleton.1 hact]
        exact hold (.register c') hreg
    | read _ _ => exact hquiet rfl rfl
    | turned _ _ => exact hquiet rfl rfl
    | command _ _ _ => exact hquiet rfl rfl
    | reject _ _ _ => exact hquiet rfl rfl
    | taken _ _ => exact hquiet rfl rfl
    | sent _ _ _ => exact hquiet rfl rfl
    | fed _ _ => exact hquiet rfl rfl
  · refine ⟨⟨fun _ _ hr => (nomatch hr), fun _ hx => (nomatch hx), fun hp => absurd rfl hp, fun id c hl => ?_,
      fun _ hx => (nomatch hx)⟩, fun _ hact => (nomatch hact), fun c => Or.inl fun _ hact => (nomatch hact)⟩
    exact absurd hl (by simp [start, MatchingThread.new, Matching.new])

/-- What a connection is written: the items for it, up to the first write that fails, numbered from one. -/
theorem run_stream (h : run (step P) (start k config recorder) acts = .ok (d, os)) (c : ConnId) :
    Dispatcher.Numbered P 0 (((itemsTo c (os.flatMap Obs.toDispatcher)).takeWhile Prod.snd).map Prod.fst)
      (reportsTo c (os.flatMap Obs.fromDispatcher)) := by
  have hreg := run_registered h c
  have htail : DispatchAct.register c ∉ ((os.flatMap Obs.toDispatcher).filter (fun act => act.conn = c)).tail := by
    rcases hreg with hno | ⟨rest, hfilter, hrest⟩
    · rw [List.filter_eq_nil_iff.2 (by simpa using hno)]
      simp
    · rw [hfilter]
      exact hrest
  have hnum := Dispatcher.run_reports htail (Finset.notMem_empty c) rfl (run_dispatcher h)
  rcases hreg with hno | ⟨rest, hfilter, -⟩
  · -- nothing was done about the connection at all
    have hitems : itemsTo c (os.flatMap Obs.toDispatcher) = [] := by
      refine List.filterMap_eq_nil_iff.2 fun act hact => ?_
      cases act with
      | register c' => rfl
      | item c' e ev ok => exact if_neg (hno _ hact)
    rw [hitems] at hnum ⊢
    simpa using hnum
  · have hmem : DispatchAct.register c ∈ os.flatMap Obs.toDispatcher := by
      have hin : DispatchAct.register c ∈ (os.flatMap Obs.toDispatcher).filter (fun act => act.conn = c) := by
        rw [hfilter]
        exact List.mem_cons_self
      exact List.mem_of_mem_filter hin
    rwa [if_pos hmem] at hnum

end Daemon

/-- The items for a connection, in the order they came off the return channel. -/
theorem itemsTo_items (c : ConnId) (os : List Obs) : (itemsTo c (os.flatMap Obs.toDispatcher)).map Prod.fst =
    ((os.flatMap Obs.dispatchedItem).filter (fun x => x.1 = c)).map Prod.snd := by
  induction os with
  | nil => rfl
  | cons o os ih =>
    rw [List.flatMap_cons, List.flatMap_cons, List.filter_append, List.map_append, ← ih]
    cases o with
    | connected c' cloned => cases cloned <;> rfl
    | dispatched c' e ev ok report =>
      change (itemsTo c (.item c' e ev ok :: os.flatMap Obs.toDispatcher)).map Prod.fst = _
      by_cases hc : c' = c
      · subst hc
        rw [Dispatcher.itemsTo_cons_item]
        simp [Obs.dispatchedItem]
      · have hother : (DispatchAct.item c' e ev ok).conn ≠ c := hc
        rw [Dispatcher.itemsTo_cons_other hother]
        simp [Obs.dispatchedItem, hc]
    | _ => rfl

/-- **Every interleaving of the daemon's threads is one order of commands**, up to the first panic of the matching
thread, with fewer than `2 ^ 64` commands taken. At any moment of any such run, the frames of each connection were
decoded in order; its commands reach the matching thread in that order, none lost and none twice; what the matching
thread has returned and offered, and is still to, is what the commands it took give when processed one after the
other; its returns and the readers' rejects are on the return channel in their own orders, told apart by the number
zero, and the numbers fit `EngineSeq`; and each client is written the items for it, in that order and numbered from
one, up to the first write that fails. -/
theorem interleavings_linearize (P : Profile) (k : ChannelCapacities) (config : RiskConfig)
    (recorder : Option (List UInt8)) {acts : List DaemonAct} {d : Daemon k} {os : List Obs}
    (hrun : run (Daemon.step P) (.start k config recorder) acts = .ok (d, os))
    (hfew : (takenCommands os).length < 2 ^ 64) :
    (∃ final outs, d.Linearized P config recorder os final outs) ∧ (∀ x ∈ d.sentItems os, x.2.1 < 2 ^ 64) ∧
    ∀ c, Dispatcher.Numbered P 0 (((itemsTo c (os.flatMap Obs.toDispatcher)).takeWhile Prod.snd).map Prod.fst)
      (reportsTo c (os.flatMap Obs.fromDispatcher)) := by
  obtain ⟨final, outs, hlin⟩ := Daemon.linearized hrun
  exact ⟨⟨final, outs, hlin⟩, hlin.numbers_lt hfew, Daemon.run_stream hrun⟩

/-- Two clients whose orders trade, their readers and the other threads interleaved. -/
def twoClients : List DaemonAct :=
  [.accept true, .accept true,
   .read 1 (commandBytes (.newOrder 1 1 .sell 100 5 .limit .gtc 0)), .read 2 [1],
   .drain 2, .drain 1, .take, .read 2 ((commandBytes (.newOrder 2 1 .buy 100 3 .limit .gtc 0)).drop 1),
   .drain 2, .emit, .drain 1, .dispatch true, .emit, .subscribe, .take, .emit, .drain 2, .read 2 [255],
   .drain 2, .emit, .emit, .emit, .emit, .fanOut, .dispatch true, .dispatch true, .write 1 true, .dispatch true,
   .fanOut, .dispatch true, .write 1 true, .fanOut, .write 1 true]

theorem interleavings_linearize_two_clients :
    ∃ d os, run (Daemon.step .release) (.start .default .default (some [])) twoClients = .ok (d, os) ∧
      (takenCommands os).length < 2 ^ 64 ∧
      (∃ final outs, d.Linearized .release .default (some []) os final outs) ∧ (∀ x ∈ d.sentItems os, x.2.1 < 2 ^ 64) ∧
      ∀ c, Dispatcher.Numbered .release 0
        (((itemsTo c (os.flatMap Obs.toDispatcher)).takeWhile Prod.snd).map Prod.fst)
        (reportsTo c (os.flatMap Obs.fromDispatcher)) := by
  obtain ⟨⟨d, os⟩, hrun, hfew⟩ := exists_ok_of_decide
    (x := run (Daemon.step .release) (.start .default .default (some [])) twoClients)
    (p := fun r => (takenCommands r.2).length < 2 ^ 64) (by decide +kernel)
  exact ⟨d, os, hrun, hfew, interleavings_linearize .release .default .default (some []) hrun hfew⟩

end MatchingEngine
