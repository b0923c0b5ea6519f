import MatchingEngine.Main.EndToEnd
import MatchingEngine.Main.Tape
import MatchingEngine.Bin.ReplayCli
import MatchingEngine.Ref.Touch

/-!
# What subscribers read

Between the engine and a subscriber market data can be lost twice: the channel may be full, and the
subscriber's own queue may drop its oldest event. What is not lost arrives in order and unchanged
(`subscribers_read_market_data`). And what was lost does not matter for long: the queue drops the oldest
events, every command that prints or moves the touch ends with an update that holds the whole touch, so a
subscriber that has caught up with the last event holds the touch of the book, whatever it lost before
(`subscribers_catch_up`).

* `Subscriber.line`: what a subscriber was written, and what waits for it.
* `Subscriber.Carried`: its line is part of what was emitted, and its stamps ascend.
* `Feed.Lasts`: the last event of a line stays the last until another one is emitted.
* `Ref.Published`: the last event published holds the touch.
-/

namespace MatchingEngine

def Delivered.item (x : Delivered) : Event × ℕ := (x.event, x.position)

/-- The event as a subscriber decodes it. -/
def Delivered.stamped (x : Delivered) : Stamped := (x.seq, none, x.event)

/-- What is pushed is at the back. -/
theorem DropOldestQueue.push_items {α : Type*} (q : DropOldestQueue α) (event : α) :
    ∃ init, (q.push event).items = init ++ [event] := by
  unfold push
  split
  · exact ⟨_, rfl⟩
  · exact ⟨_, rfl⟩

namespace Subscriber

variable {sub sub' : Subscriber} {channel : List (Event × ℕ)} {item : Event × ℕ} {n : ℕ}

/-- What was written to its socket: `buf[..len]` of a fresh buffer for each event. -/
def bytes (sub : Subscriber) : Except Panic (List UInt8) := do
  let frames ← sub.written.mapM fun x => Replay.writeOne x.seq none x.event
  pure frames.flatten

/-- What was written to it, waits in its queue, and waits in the channel. -/
def line (sub : Subscriber) (channel : List (Event × ℕ)) : List (Event × ℕ) :=
  sub.written.map Delivered.item ++ (sub.queue.items ++ channel)

theorem line_snoc (sub : Subscriber) (channel : List (Event × ℕ)) (item : Event × ℕ) :
    sub.line (channel ++ [item]) = sub.line channel ++ [item] := by
  unfold line
  rw [List.append_assoc, List.append_assoc]

/-- The fan-out moves an event on; the queue may drop its oldest one. -/
theorem line_push (hcap : 1 ≤ sub.queue.capacity) (item : Event × ℕ) (channel : List (Event × ℕ)) :
    ∃ dropped : List (Event × ℕ), sub.line (item :: channel) =
      sub.written.map Delivered.item ++ (dropped ++ ((sub.push item).queue.items ++ channel)) := by
  refine ⟨sub.queue.evicted.toList, ?_⟩
  have hitems := (DropOldestQueue.push_evicted hcap item).1
  unfold line
  rw [← List.append_assoc sub.queue.evicted.toList]
  show _ = _ ++ (sub.queue.evicted.toList ++ (sub.queue.push item).items ++ channel)
  rw [← hitems, List.append_assoc, List.singleton_append]

/-- The writer's event was at the front. -/
theorem line_write (hw : sub.write = some sub') : sub'.line channel = sub.line channel := by
  unfold Subscriber.write at hw
  obtain ⟨⟨⟨⟨event, position⟩, dropped⟩, queue⟩, hpop, hsub⟩ := Option.bind_eq_some_iff.1 hw
  obtain ⟨hitems, -⟩ := DropOldestQueue.popBlocking_spec hpop
  obtain rfl := Option.some.inj hsub
  unfold line
  rw [hitems, List.map_append, List.append_assoc]
  rfl

theorem write_capacity (hw : sub.write = some sub') : sub'.queue.capacity = sub.queue.capacity := by
  unfold Subscriber.write at hw
  obtain ⟨⟨⟨⟨event, position⟩, dropped⟩, queue⟩, hpop, hsub⟩ := Option.bind_eq_some_iff.1 hw
  obtain ⟨-, -, -, hcap⟩ := DropOldestQueue.popBlocking_spec hpop
  obtain rfl := Option.some.inj hsub
  exact hcap

/-- The stamps count what came off the channel, so they do not wrap and ascend. -/
structure Counts (sub : Subscriber) (n : ℕ) : Prop where
  bound : sub.seq + sub.queue.droppedSinceLastPop + sub.queue.items.length ≤ n
  ascending : (sub.written.map Delivered.seq).Pairwise (· < ·)
  stamps : ∀ x ∈ sub.written, x.seq ≤ sub.seq

theorem Counts.new (capacity n : ℕ) : (Subscriber.new capacity).Counts n :=
  ⟨Nat.zero_le n, .nil, fun _ hx => absurd hx List.not_mem_nil⟩

theorem Counts.mono (h : sub.Counts n) {m : ℕ} (hle : n ≤ m) : sub.Counts m := ⟨h.bound.trans hle, h.ascending, h.stamps⟩

theorem Counts.push (h : sub.Counts n) (hcap : 1 ≤ sub.queue.capacity) (hfew : n + 1 < 2 ^ 64) (item : Event × ℕ) :
    (sub.push item).Counts (n + 1) := by
  have hbound := h.bound
  obtain ⟨j, hj, hitems, hdropped⟩ := sub.queue.push_spec hcap (by omega) item []
  have hlen := congrArg List.length hitems
  rw [List.append_nil, List.length_drop, List.length_append, List.length_singleton] at hlen
  refine ⟨?_, h.ascending, h.stamps⟩
  show sub.seq + (sub.queue.push item).droppedSinceLastPop + (sub.queue.push item).items.length ≤ n + 1
  omega

theorem Counts.write (h : sub.Counts n) (hfew : n < 2 ^ 64) (hw : sub.write = some sub') : sub'.Counts n := by
  unfold Subscriber.write at hw
  obtain ⟨⟨⟨⟨event, position⟩, dropped⟩, queue⟩, hpop, hsub⟩ := Option.bind_eq_some_iff.1 hw
  obtain ⟨hitems, rfl, hzero, -⟩ := DropOldestQueue.popBlocking_spec hpop
  have hbound := h.bound
  rw [hitems, List.length_cons] at hbound
  have hseq : (sub.seq + (1 + sub.queue.droppedSinceLastPop) % 2 ^ 64) % 2 ^ 64 =
      sub.seq + (1 + sub.queue.droppedSinceLastPop) := by
    rw [Nat.mod_eq_of_lt (show 1 + sub.queue.droppedSinceLastPop < 2 ^ 64 by omega), Nat.mod_eq_of_lt (by omega)]
  simp only [hseq, pure, Option.some.injEq] at hsub
  subst hsub
  refine ⟨?_, ?_, fun x hx => ?_⟩
  · dsimp only
    omega
  · rw [List.map_append, List.pairwise_append]
    refine ⟨h.ascending, List.pairwise_singleton _ _, fun m hm m' hm' => ?_⟩
    obtain ⟨x, hx, rfl⟩ := List.mem_map.1 hm
    have hle := h.stamps x hx
    rw [List.mem_singleton.1 hm']
    dsimp only
    omega
  · rcases List.mem_append.1 hx with hx | hx
    · have hle := h.stamps x hx
      dsimp only
      omega
    · rw [List.mem_singleton.1 hx]

/-- The line is part of what was emitted, in order; the stamps count what left the channel. -/
structure Carried (emitted : List Event) (channel : List (Event × ℕ)) (sub : Subscriber) : Prop where
  capacity : 1 ≤ sub.queue.capacity
  line : (sub.line channel).Sublist emitted.zipIdx
  counts : emitted.length < 2 ^ 64 → sub.Counts (emitted.length - channel.length)

variable {emitted : List Event} {event : Event}

theorem zipIdx_snoc (emitted : List Event) (event : Event) :
    (emitted ++ [event]).zipIdx = emitted.zipIdx ++ [(event, emitted.length)] := by
  rw [List.zipIdx_append]
  simp

/-- An event is emitted, and finds room in the channel or not. -/
theorem Carried.offer (h : sub.Carried emitted channel) (event : Event) (room : Prop) [Decidable room] :
    sub.Carried (emitted ++ [event]) (if room then channel ++ [(event, emitted.length)] else channel) := by
  have hlen : (emitted ++ [event]).length = emitted.length + 1 := List.length_append
  by_cases hroom : room
  · rw [if_pos hroom]
    refine ⟨h.capacity, ?_, fun hfew => (h.counts (by omega)).mono ?_⟩
    · rw [zipIdx_snoc, line_snoc]
      exact h.line.append (List.Sublist.refl _)
    · rw [hlen, List.length_append, List.length_singleton]
      omega
  · rw [if_neg hroom]
    refine ⟨h.capacity, ?_, fun hfew => (h.counts (by omega)).mono (by omega)⟩
    rw [zipIdx_snoc]
    exact h.line.trans (List.sublist_append_left _ _)

theorem Carried.push (h : sub.Carried emitted (item :: channel)) : (sub.push item).Carried emitted channel := by
  obtain ⟨dropped, hline⟩ := line_push h.capacity item channel
  have hchannel : channel.length + 1 ≤ emitted.length := by
    have hle := h.line.length_le
    unfold Subscriber.line at hle
    simp only [List.length_append, List.length_cons, List.length_zipIdx] at hle
    omega
  refine ⟨(sub.queue.push_capacity item).symm ▸ h.capacity, ?_, fun hfew => ?_⟩
  · refine List.Sublist.trans ?_ (hline ▸ h.line)
    exact (List.Sublist.refl _).append (List.sublist_append_right _ _)
  · have hcounts := h.counts hfew
    rw [List.length_cons] at hcounts
    have hpush := hcounts.push h.capacity (by omega) item
    rwa [show emitted.length - (channel.length + 1) + 1 = emitted.length - channel.length by omega] at hpush

theorem Carried.write (h : sub.Carried emitted channel) (hw : sub.write = some sub') : sub'.Carried emitted channel :=
  ⟨(write_capacity hw).symm ▸ h.capacity, (line_write hw).symm ▸ h.line,
    fun hfew => (h.counts hfew).write (by omega) hw⟩

end Subscriber

namespace Feed

variable {k : Capacities} {f f' : Feed} {act : FeedAct} {acts : List FeedAct} {u : Unit} {us : List Unit}

structure Carried (f : Feed) : Prop where
  channel : f.channel.Sublist f.emitted.zipIdx
  subscribers : ∀ id sub, f.subscribers id = some sub → sub.Carried f.emitted f.channel

theorem Carried.start : start.Carried := ⟨List.Sublist.refl _, by simp [Feed.start]⟩

/-- **One step.** -/
theorem Carried.step (h : f.Carried) (hstep : f.step k act = .ok (f', u)) : f'.Carried := by
  rcases step_cases hstep with ⟨event, rfl, hem, hsubs, hch⟩ | ⟨item, rfl, hem, hch, hsubs⟩ | ⟨rfl, hem, hch, hsubs⟩ |
    ⟨i, ok, old, new, rfl, hem, hch, hold, hw, hsubs⟩
  · refine ⟨?_, fun id sub hsub => ?_⟩
    · rw [hem, hch, Subscriber.zipIdx_snoc]
      split
      · exact h.channel.append (List.Sublist.refl _)
      · exact h.channel.trans (List.sublist_append_left _ _)
    · rw [hem, hch]
      exact (h.subscribers id sub (hsubs ▸ hsub)).offer event _
  · refine ⟨?_, fun id sub hsub => ?_⟩
    · have hsub := h.channel
      rw [hch] at hsub
      rw [hem]
      exact (List.sublist_cons_self _ _).trans hsub
    · rw [hsubs] at hsub
      obtain ⟨old, hold, rfl⟩ := Option.map_eq_some_iff.1 hsub
      have hcarried := h.subscribers id old hold
      rw [hch] at hcarried
      rw [hem]
      exact hcarried.push
  · refine ⟨hem ▸ hch ▸ h.channel, fun id sub hsub => ?_⟩
    rw [hem, hch]
    rw [hsubs, Function.update_apply] at hsub
    split at hsub
    · -- a subscriber that joins waits for what is in the channel
      obtain rfl := Option.some.inj hsub
      exact ⟨k.queue_pos, h.channel, fun _ => .new _ _⟩
    · exact h.subscribers id sub hsub
  · refine ⟨hem ▸ hch ▸ h.channel, fun id sub hsub => ?_⟩
    rw [hem, hch]
    rw [hsubs, Function.update_apply] at hsub
    split at hsub
    · split at hsub
      · obtain rfl := Option.some.inj hsub
        exact (h.subscribers i old hold).write hw
      · cases hsub
    · exact h.subscribers id sub hsub

theorem run_carried (hrun : run (step k) start acts = .ok (f, us)) : f.Carried :=
  run_inv (C := fun _ _ => True) Carried (fun _ _ _ _ h _ hstep => h.step hstep) .start
    (along_of_forall (Q := fun _ => True) fun _ _ => trivial) hrun

/-- The last event of a subscriber's line. -/
def Lasts (id : SubscriberId) (item : Event × ℕ) (f : Feed) : Prop :=
  id < f.nextId ∧ ∀ sub, f.subscribers id = some sub → 1 ≤ sub.queue.capacity ∧ (sub.line f.channel).getLast? = some item

variable {id : SubscriberId} {item : Event × ℕ}

/-- An event that finds room is the last of every line. -/
theorem Lasts.offer {event : Event} (hf : f.Fresh) (hc : f.Carried) (hthere : (f.subscribers id).isSome)
    (hroom : f.channel.length < k.channel) (hstep : f.step k (.offer event) = .ok (f', u)) :
    Lasts id (event, f.emitted.length) f' := by
  simp only [Feed.step, if_pos hroom] at hstep
  cases hstep
  refine ⟨?_, fun sub hsub => ⟨(hc.subscribers id sub hsub).capacity, ?_⟩⟩
  · by_contra hge
    rw [hf id (Nat.le_of_not_lt hge)] at hthere
    cases hthere
  · rw [sub.line_snoc, List.getLast?_concat]

/-- **It stays the last** as long as nothing is emitted: a queue drops its oldest event. -/
theorem Lasts.step (h : Lasts id item f) (hquiet : act.offered = none) (hstep : f.step k act = .ok (f', u)) :
    Lasts id item f' := by
  obtain ⟨hlt, hlast⟩ := h
  cases act with
  | offer event => cases hquiet
  | fanOut =>
    simp only [Feed.step] at hstep
    split at hstep
    · cases hstep
    · next x channel hch =>
      cases hstep
      refine ⟨hlt, fun sub hsub => ?_⟩
      obtain ⟨old, hold, rfl⟩ := Option.map_eq_some_iff.1 hsub
      obtain ⟨hcap, hline⟩ := hlast old hold
      refine ⟨(old.queue.push_capacity x).symm ▸ hcap, ?_⟩
      obtain ⟨dropped, hsplit⟩ := Subscriber.line_push hcap x channel
      -- the queue holds the event it was just given, so what it dropped was not the last
      have hne : (old.push x).queue.items ++ channel ≠ [] := by
        obtain ⟨init, hinit⟩ := old.queue.push_items x
        have hitems : (old.push x).queue.items = init ++ [x] := hinit
        simp [hitems]
      rw [hch, hsplit, List.getLast?_append_of_ne_nil _ (List.append_ne_nil_of_right_ne_nil _ hne),
        List.getLast?_append_of_ne_nil _ hne] at hline
      show ((old.push x).line channel).getLast? = some item
      unfold Subscriber.line
      rw [List.getLast?_append_of_ne_nil _ hne]
      exact hline
  | accept =>
    cases hstep
    refine ⟨Nat.lt_succ_of_lt hlt, fun sub hsub => hlast sub ?_⟩
    exact (Function.update_of_ne (Nat.ne_of_lt hlt) _ _).symm.trans hsub
  | write id' ok =>
    simp only [Feed.step] at hstep
    split at hstep
    · cases hstep
    · next new hw =>
      cases hstep
      refine ⟨hlt, fun sub hsub => ?_⟩
      dsimp only at hsub
      rw [Function.update_apply] at hsub
      split at hsub
      · next hid =>
        obtain ⟨old, hold, hw⟩ := Option.bind_eq_some_iff.1 hw
        split at hsub
        · obtain rfl := Option.some.inj hsub
          obtain ⟨hcap, hline⟩ := hlast old (hid ▸ hold)
          exact ⟨(Subscriber.write_capacity hw).symm ▸ hcap, (Subscriber.line_write hw).symm ▸ hline⟩
        · cases hsub
      · exact hlast sub hsub

theorem run_lasts (h : Lasts id item f) (hquiet : acts.filterMap FeedAct.offered = [])
    (hrun : run (step k) f acts = .ok (f', us)) : Lasts id item f' :=
  run_inv (C := fun _ act => act.offered = none) (Lasts id item) (fun _ _ _ _ h hq hstep => h.step hq hstep) h
    (along_of_forall (List.filterMap_eq_nil_iff.1 hquiet)) hrun

end Feed

/-! ### The stream -/

/-- **What subscribers read is what the engine published**, as far as it was not lost. In the release build, at any
moment of any run of the daemon's threads with fewer than `2 ^ 64` commands and events: what a subscriber was written
is part of what the commands taken publish one after the other, in order and each event once, under ascending stamps;
every one of its messages could be encoded; and whoever has read any beginning of the bytes, in any chunks, has decoded
the first of these events, and all of them if it has read all. -/
theorem subscribers_read_market_data (k : ChannelCapacities) (config : RiskConfig) (recorder : Option (List UInt8))
    {acts : List DaemonAct} {d : Daemon k} {os : List Obs}
    (hrun : run (Daemon.step .release) (.start k config recorder) acts = .ok (d, os))
    (hfew : (takenCommands os).length < 2 ^ 64) (hevents : d.feed.emitted.length < 2 ^ 64) {id : SubscriberId}
    {sub : Subscriber} (hsub : d.feed.subscribers id = some sub) :
    (∃ final outs, run (Matching.step .release) (.new config recorder) (takenCommands os) = .ok (final, outs) ∧
      (sub.written.map Delivered.item).Sublist (outs.flatMap Dispatched.marketData).zipIdx) ∧
    (sub.written.map Delivered.seq).Pairwise (· < ·) ∧
    ∃ bytes, sub.bytes = .ok bytes ∧ ∀ chunks, chunks.flatten <+: bytes →
      ∃ m kept, Framer.new.feedChunks (Client.onFrame Client.keep) [] chunks =
          .ok (kept, (sub.written.map Delivered.stamped).take m, .ok ()) ∧
        (chunks.flatten = bytes → (sub.written.map Delivered.stamped).take m = sub.written.map Delivered.stamped) := by
  obtain ⟨final, outs, hlin⟩ := Daemon.linearized hrun
  obtain ⟨us, hfeed⟩ := Daemon.run_feed hrun
  have hcarried := (Feed.run_carried hfeed).subscribers id sub hsub
  have hcounts := hcarried.counts hevents
  have hpart : (sub.written.map Delivered.item).Sublist d.feed.emitted.zipIdx :=
    (List.sublist_append_left _ _).trans hcarried.line
  have hpublished : d.feed.emitted <+: MatchingThread.offered outs := by
    rw [hlin.marketData]
    exact List.prefix_append _ _
  have hdec : ∀ x ∈ takenCommands os, x.2.Decodable := fun x hx => hlin.decodable x (List.mem_append_left _ hx)
  have htyped := (Matching.run_typed hdec hfew hlin.run).2
  obtain ⟨fs, hfs, hmsgs⟩ := Replay.mapM_messages (l := sub.written) (fun x => Replay.writeOne x.seq none x.event)
    Delivered.stamped (fun x hx => by
      have hitem : Delivered.item x ∈ d.feed.emitted.zipIdx := hpart.subset (List.mem_map_of_mem hx)
      have hmem : x.event ∈ d.feed.emitted := (List.mem_zipIdx' hitem).2 ▸ List.getElem_mem _
      obtain ⟨hkind, hev⟩ := htyped x.event (hpublished.subset hmem)
      have hseq : x.seq < 2 ^ 64 := by
        have hle := hcounts.stamps x hx
        have hbound := hcounts.bound
        omega
      exact Replay.writeOne_message hseq (Event.isReport_of_isMarketData hkind) hev)
  refine ⟨⟨final, outs, hlin.run, ?_⟩, hcounts.ascending, fs.flatten, ?_, fun chunks hread => ?_⟩
  · refine hpart.trans ?_
    obtain ⟨rest, hrest⟩ := hpublished
    have hsplit : outs.flatMap Dispatched.marketData = d.feed.emitted ++ rest := hrest.symm
    rw [hsplit, List.zipIdx_append]
    exact List.sublist_append_left _ _
  · unfold Subscriber.bytes
    rw [bind_of_ok hfs]
    rfl
  · obtain ⟨m, kept, hgot, hall⟩ := Client.feedChunks_messages Client.keep hmsgs hread []
    rw [Client.foldl_keep, List.nil_append] at hgot
    exact ⟨m, kept, hgot, fun hwhole => (hall hwhole).1⟩

/-- Two clients whose orders trade: the subscriber has read both updates and the trade between them. -/
theorem subscribers_read_market_data_two_clients :
    ∃ d os sub, run (Daemon.step .release) (.start .default .default (some [])) twoClients = .ok (d, os) ∧
      (takenCommands os).length < 2 ^ 64 ∧ d.feed.emitted.length < 2 ^ 64 ∧ d.feed.subscribers 1 = some sub ∧
      sub.written.length = 3 ∧
      (∃ final outs, run (Matching.step .release) (.new .default (some [])) (takenCommands os) = .ok (final, outs) ∧
        (sub.written.map Delivered.item).Sublist (outs.flatMap Dispatched.marketData).zipIdx) ∧
      (sub.written.map Delivered.seq).Pairwise (· < ·) ∧
      ∃ bytes, sub.bytes = .ok bytes ∧ ∀ chunks, chunks.flatten <+: bytes →
        ∃ m kept, Framer.new.feedChunks (Client.onFrame Client.keep) [] chunks =
            .ok (kept, (sub.written.map Delivered.stamped).take m, .ok ()) ∧
          (chunks.flatten = bytes →
            (sub.written.map Delivered.stamped).take m = sub.written.map Delivered.stamped) := by
  obtain ⟨⟨d, os⟩, hrun, hfew, hevents, hwritten⟩ := exists_ok_of_decide
    (x := run (Daemon.step .release) (.start .default .default (some [])) twoClients)
    (p := fun r => (takenCommands r.2).length < 2 ^ 64 ∧ r.1.feed.emitted.length < 2 ^ 64 ∧
      (r.1.feed.subscribers 1).map (fun sub => sub.written.length) = some 3) (by decide +kernel)
  obtain ⟨sub, hsub, hlen⟩ := Option.map_eq_some_iff.1 hwritten
  exact ⟨d, os, sub, hrun, hfew, hevents, hsub, hlen,
    subscribers_read_market_data .default .default (some []) hrun hfew hevents hsub⟩

/-! ### Catching up -/

namespace Ref

variable {r : Ref} {md : List Event}

/-- The last event published holds the touch; before the first one there is none. -/
def Published (r : Ref) (md : List Event) : Prop :=
  md.getLast?.getD (.bookUpdate none none) = .bookUpdate (r.topOfBook .release).1 (r.topOfBook .release).2

/-- **One command**: it publishes nothing and leaves the touch, or ends with an update. -/
theorem Published.apply (hp : r.Published md) (h : r.WF) (hfit : r.total Order.qty < 2 ^ 64) (c : Command) :
    (r.apply .release c).1.Published (md ++ (r.apply .release c).2.filter Event.isMarketData) := by
  have hquiet := (h.dispatch_carries .release c).quiet
  have hmoves := (r.did .release c).trade_moves h hfit
  unfold Ref.apply
  dsimp only
  split
  · unfold Published
    rw [List.filter_append, ← List.append_assoc, List.filter_singleton]
    simp [Event.isMarketData]
  · next hsame =>
    have hsame := not_not.1 hsame
    have hnone : (r.dispatch .release c).2.filter Event.isMarketData = [] := by
      rw [List.filter_eq_nil_iff]
      intro ev hev hmd
      cases ev with
      | trade price qty takerSide => exact hmoves ⟨_, hev, rfl⟩ hsame
      | bookUpdate bid ask => cases hquiet _ hev
      | _ => cases hmd
    rw [hnone, List.append_nil]
    unfold Published at hp ⊢
    rw [← hsame]
    exact hp

end Ref

/-- **Whole runs** of commands whose quantities together fit the word they are summed in. -/
theorem System.run_published {s s' : System} {r : Ref} {md : List Event} (hs : Sim .release ⊤ s.engine.book r)
    (hp : r.Published md) {cmds : List Command} (hcmds : ∀ c ∈ cmds, c.Decodable)
    (hfit : r.total Order.qty + (cmds.map Command.quantity).sum < 2 ^ 64) {evss : List (List (ℕ × Event))}
    (hrun : s.runFrom .release cmds = .ok (s', evss)) :
    ∃ r', Sim .release ⊤ s'.engine.book r' ∧
      r'.Published (md ++ (evss.flatten.filter (fun e => e.2.isMarketData)).map Prod.snd) := by
  induction cmds generalizing s r md evss with
  | nil =>
    cases hrun
    exact ⟨r, hs, by simpa using hp⟩
  | cons c cmds ih =>
    rw [List.map_cons, List.sum_cons] at hfit
    obtain ⟨hc, hcmds⟩ := List.forall_mem_cons.1 hcmds
    obtain ⟨s₁, evs, evss', h1, h2, rfl⟩ := run_cons_inv hrun
    rw [List.flatten_cons, List.filter_append, List.map_append, ← List.append_assoc]
    obtain ⟨-, -, ⟨he, a, i, reason, rfl⟩ | ⟨-, evs', ha, rfl⟩⟩ := System.processCommand_cases h1
    · exact ih (he ▸ hs) (by simpa [Event.isMarketData] using hp) hcmds (by omega) h2
    · obtain ⟨rfl, hs₁⟩ := hs.applied Profile.release_total hc ha
      have hresting := (r.did .release c).resting_le hs.wf
      have htotal : (r.apply .release c).1.total Order.qty = (r.dispatch .release c).1.total Order.qty := rfl
      refine ih hs₁ ?_ hcmds (by omega) h2
      have hpub := hp.apply hs.wf (by omega) c
      have hnumbered : (((r.apply .release c).2.map (fun ev => (s.engineSeq + 1, ev))).filter
          (fun e => e.2.isMarketData)).map Prod.snd = (r.apply .release c).2.filter Event.isMarketData := by
        rw [List.filter_map, List.map_map]
        exact List.map_id _
      rw [hnumbered]
      exact hpub

/-- The market data offered. -/
def offeredIn (os : List Obs) : List Event := MatchingThread.offered (os.flatMap Obs.fromMatching)

/-- What a subscriber keeps of what was written to it. -/
def Subscriber.tape (sub : Subscriber) : Tape := (sub.written.map Delivered.event).foldl Tape.take .new

namespace Daemon

variable {k : ChannelCapacities} {P : Profile} {d d' : Daemon k} {o : Obs}

/-- A step that offers market data offers one event. -/
theorem emit_offers (h : d.step P .emit = .ok (d', o)) (hoffers : offeredIn [o] ≠ []) :
    ∃ event, offeredIn [o] = [event] ∧ d.feed.step k.marketData (.offer event) = .ok (d'.feed, ()) := by
  cases step_cases h with
  | @sent matching out returns feed us emits sends offers =>
    have hout : offeredIn [.sent out] = out.marketData := by simp [offeredIn, MatchingThread.offered, Obs.fromMatching]
    rw [hout] at hoffers ⊢
    rcases MatchingThread.step_cases emits with ⟨_, _, _, ha, _⟩ | ⟨x, pending, -, -, -, rfl⟩
    · cases ha
    · unfold MatchingThread.sends at hoffers offers ⊢
      split at offers
      · next hmd =>
        rw [if_pos hmd]
        obtain ⟨f₁, u₁, us', h1, h2, -⟩ := run_cons_inv offers
        cases h2
        exact ⟨x.2, rfl, h1⟩
      · next hmd =>
        rw [if_neg hmd] at hoffers
        exact absurd rfl hoffers
  | fed own _ => rcases own with ⟨ha, -⟩ | ⟨ha, -⟩ | ⟨_, _, ha, -⟩ <;> cases ha

end Daemon

/-- **A subscriber that has caught up holds the touch of the book**, whatever was lost on the way. In the release
build, take any run of the daemon's threads to a moment at rest, the quantities of whose commands sum to less than
`2 ^ 64`: if the last event published found room in the channel, every subscriber that was connected then, and still
is, has last read an update with the best bid and the best ask of the book as it stands. -/
theorem subscribers_catch_up (k : ChannelCapacities) (config : RiskConfig) (recorder : Option (List UInt8))
    {before after : List DaemonAct} {d₀ d₁ d : Daemon k} {os₀ os₁ : List Obs} {o : Obs}
    (hbefore : run (Daemon.step .release) (.start k config recorder) before = .ok (d₀, os₀))
    (hlast : d₀.step .release .emit = .ok (d₁, o)) (hoffers : offeredIn [o] ≠ [])
    (hroom : d₀.feed.channel.length < k.marketData.channel)
    (hafter : run (Daemon.step .release) d₁ after = .ok (d, os₁)) (hquiet : offeredIn os₁ = []) (hidle : d.Idle)
    (hfit : ((takenCommands (os₀ ++ o :: os₁)).map (fun x => x.2.quantity)).sum < 2 ^ 64) {id : SubscriberId}
    (hthere : (d₀.feed.subscribers id).isSome) {sub : Subscriber} (hsub : d.feed.subscribers id = some sub) :
    (sub.written.map Delivered.event).getLast? =
      some (.bookUpdate d.matching.matching.system.engine.book.topOfBook.1
        d.matching.matching.system.engine.book.topOfBook.2) ∧
    (sub.tape.bestBid, sub.tape.bestAsk) = d.matching.matching.system.engine.book.topOfBook := by
  have hrun := run_append_ok hbefore (run_cons_ok hlast hafter)
  obtain ⟨final, outs, hlin⟩ := Daemon.linearized hrun
  -- what the engine published ends with the touch
  have hdec : ∀ x ∈ takenCommands (os₀ ++ o :: os₁), x.2.Decodable :=
    fun x hx => hlin.decodable x (List.mem_append_left _ hx)
  obtain ⟨evss, hsys, -, hmd⟩ := MatchingThread.run_system hlin.run
  have hnew : Ref.new.total Order.qty = 0 := rfl
  have hstart : Ref.new.Published [] := rfl
  obtain ⟨r, hs, hpub⟩ := System.run_published (Sim.new .release ⊤) hstart
    (List.forall_mem_map.2 hdec) (by rw [hnew, Nat.zero_add, List.map_map]; exact hfit) hsys
  rw [List.nil_append, ← hmd, hlin.marketData, hidle.toSend] at hpub
  have hall : d.feed.emitted ++ MatchingThread.offered [] = d.feed.emitted := List.append_nil _
  rw [hall] at hpub
  -- the last event goes into the channel, and nothing behind it
  obtain ⟨event, -, hoffer⟩ := Daemon.emit_offers hlast hoffers
  obtain ⟨us, hfeed⟩ := Daemon.run_feed hafter
  have hsilent : (os₁.flatMap Obs.toFeed).filterMap FeedAct.offered = [] := by
    rw [offered_events os₁ (Daemon.run_fed hafter)]
    exact hquiet
  have hemitted : d.feed.emitted = d₀.feed.emitted ++ [event] := by
    obtain ⟨f₁, hstep, hem, -⟩ := Feed.step_offer k.marketData d₀.feed event
    rw [hstep] at hoffer
    rw [Feed.run_emitted hfeed, hsilent, List.append_nil, ← (Prod.mk.inj (Except.ok.inj hoffer)).1, hem]
  have hevent : event = .bookUpdate (r.topOfBook .release).1 (r.topOfBook .release).2 := by
    unfold Ref.Published at hpub
    rwa [hemitted, List.getLast?_concat, Option.getD_some] at hpub
  have hlasts : Feed.Lasts id (event, d₀.feed.emitted.length) d₁.feed := by
    obtain ⟨us₀, hfeed₀⟩ := Daemon.run_feed hbefore
    have hfresh := (Daemon.run_fresh (Daemon.fresh_start k config recorder) (fun _ _ => rfl) hbefore).2
    exact .offer hfresh (Feed.run_carried hfeed₀) hthere hroom hoffer
  obtain ⟨-, hline⟩ := (Feed.run_lasts hlasts hsilent hfeed).2 sub hsub
  have hwritten : (sub.written.map Delivered.item).getLast? = some (event, d₀.feed.emitted.length) := by
    unfold Subscriber.line at hline
    rwa [hidle.queues id sub hsub, hidle.channel, List.append_nil, List.append_nil] at hline
  obtain ⟨init, hinit⟩ := List.getLast?_eq_some_iff.1 hwritten
  have hevents : sub.written.map Delivered.event = init.map Prod.fst ++ [event] := by
    have hfst : sub.written.map Delivered.event = (sub.written.map Delivered.item).map Prod.fst := by
      rw [List.map_map]
      rfl
    rw [hfst, hinit, List.map_append]
    rfl
  have htop : d.matching.matching.system.engine.book.topOfBook = r.topOfBook .release := by
    rw [← hlin.system, hs.topOfBook]
  refine ⟨?_, ?_⟩
  · rw [hevents, List.getLast?_concat, hevent, htop]
  · unfold Subscriber.tape
    rw [hevents, List.foldl_append, hevent, htop]
    rfl

/-- Room for one event in the channel and in every queue. -/
def tightCapacities : ChannelCapacities :=
  ⟨8, 8, ⟨1, 1, Nat.le_refl 1, Nat.le_refl 1⟩, Nat.le_add_left 1 7, Nat.le_add_left 1 7⟩

/-- Up to the last update: the trade before it found the channel full. -/
def beforeLast : List DaemonAct :=
  [.accept true, .accept true, .subscribe, .read 1 (commandBytes (.newOrder 1 1 .sell 100 5 .limit .gtc 0)),
   .drain 1, .drain 1, .take, .emit, .emit, .read 2 (commandBytes (.newOrder 2 1 .buy 100 3 .limit .gtc 0)),
   .drain 2, .drain 2, .take, .emit, .emit, .emit, .emit, .fanOut]

/-- And from it on: the subscriber's queue drops the first update. -/
def afterLast : List DaemonAct :=
  [.fanOut, .write 1 true, .dispatch true, .dispatch true, .dispatch true, .dispatch true]

/-- One event is turned away and one dropped; the subscriber is left with the touch. -/
theorem subscribers_catch_up_slow :
    ∃ d₀ os₀ d₁ o d os₁ sub,
      run (Daemon.step .release) (.start tightCapacities .default (some [])) beforeLast = .ok (d₀, os₀) ∧
      d₀.step .release .emit = .ok (d₁, o) ∧ run (Daemon.step .release) d₁ afterLast = .ok (d, os₁) ∧
      d.feed.subscribers 1 = some sub ∧ sub.written.length = 1 ∧ d.feed.emitted.length = 3 ∧
      (sub.written.map Delivered.event).getLast? =
        some (.bookUpdate d.matching.matching.system.engine.book.topOfBook.1
          d.matching.matching.system.engine.book.topOfBook.2) ∧
      (sub.tape.bestBid, sub.tape.bestAsk) = d.matching.matching.system.engine.book.topOfBook := by
  obtain ⟨⟨⟨d₀, os₀⟩, ⟨d₁, o⟩, d, os₁⟩, hruns, hoffers, hroom, hquiet, hbelow, hfit, hthere, hwritten, hemitted⟩ :=
    exists_ok_of_decide (x := do
      let x₀ ← run (Daemon.step .release) (.start tightCapacities .default (some [])) beforeLast
      let x₁ ← x₀.1.step .release .emit
      let x ← run (Daemon.step .release) x₁.1 afterLast
      pure (x₀, x₁, x))
    (p := fun r => offeredIn [r.2.1.2] ≠ [] ∧ r.1.1.feed.channel.length < 1 ∧ offeredIn r.2.2.2 = [] ∧
      r.2.2.1.idleBelow = true ∧
      ((takenCommands (r.1.2 ++ r.2.1.2 :: r.2.2.2)).map (fun x => x.2.quantity)).sum < 2 ^ 64 ∧
      (r.1.1.feed.subscribers 1).isSome ∧
      (r.2.2.1.feed.subscribers 1).map (fun sub => sub.written.length) = some 1 ∧
      r.2.2.1.feed.emitted.length = 3) (by decide +kernel)
  obtain ⟨x₀, hbefore, hruns⟩ := exists_of_bind_ok hruns
  obtain ⟨x₁, hlast, hruns⟩ := exists_of_bind_ok hruns
  obtain ⟨x, hafter, hruns⟩ := exists_of_bind_ok hruns
  cases hruns
  obtain ⟨sub, hsub, hlen⟩ := Option.map_eq_some_iff.1 hwritten
  obtain ⟨hf, hfeed⟩ := Daemon.run_fresh (Daemon.fresh_start tightCapacities .default (some [])) (fun _ _ => rfl)
    (run_append_ok hbefore (run_cons_ok hlast hafter))
  have hidle := Daemon.idle_of_idleBelow hf hfeed hbelow
  exact ⟨d₀, os₀, d₁, o, d, os₁, sub, hbefore, hlast, hafter, hsub, hlen, hemitted,
    subscribers_catch_up tightCapacities .default (some []) hbefore hlast hoffers hroom hafter hquiet hidle hfit
      hthere hsub⟩

end MatchingEngine
