import MatchingEngine.Marketdata.Feed

/-!
# Lost market data and sequence gaps

A subscriber's stamps skip what its own queue has dropped. So as long as nothing is lost before
the queue, stamps and positions move together (`gaps_show_losses`). An event that finds the channel
full is lost as well, but nobody counts it: the stamps go on without a gap
(`full_channel_hides_loss`).

* `Subscriber.Follows`: a subscriber, against all events emitted.
* `Feed.Numbered`: what holds along a run whose offers find room.
-/

namespace MatchingEngine

namespace Subscriber

/-- The subscriber is `base` events late; its stamps count from there. What is in its queue and in
the channel is what was emitted behind its stamp and the drops counted since. -/
structure Follows (emitted : List Event) (channel : List (Event × ℕ)) (base : ℕ) (sub : Subscriber) : Prop where
  capacity : 1 ≤ sub.queue.capacity
  bound : base + sub.seq + sub.queue.droppedSinceLastPop ≤ emitted.length
  ahead : sub.queue.items ++ channel = emitted.zipIdx.drop (base + sub.seq + sub.queue.droppedSinceLastPop)
  stamped : ∀ d ∈ sub.written, emitted[d.position]? = some d.event ∧ d.position + 1 = base + d.seq

variable {emitted : List Event} {channel : List (Event × ℕ)} {base : ℕ} {sub sub' : Subscriber}

theorem Follows.new {capacity : ℕ} (hcap : 1 ≤ capacity) (hbase : base ≤ emitted.length)
    (hch : channel = emitted.zipIdx.drop base) : (Subscriber.new capacity).Follows emitted channel base :=
  ⟨hcap, hbase, hch, by simp [Subscriber.new]⟩

/-- One more event, at the back of the channel. -/
theorem Follows.offer (h : sub.Follows emitted channel base) (event : Event) :
    sub.Follows (emitted ++ [event]) (channel ++ [(event, emitted.length)]) base := by
  have hbound := h.bound
  refine ⟨h.capacity, ?_, ?_, ?_⟩
  · rw [List.length_append]
    omega
  · rw [← List.append_assoc, h.ahead, drop_zipIdx_snoc hbound]
  · intro d hd
    obtain ⟨hev, hseq⟩ := h.stamped d hd
    have hlt := (List.getElem?_eq_some_iff.1 hev).1
    rw [List.getElem?_append_left hlt]
    exact ⟨hev, hseq⟩

/-- The front of the channel goes to the queue. -/
theorem Follows.push {item : Event × ℕ} (h : sub.Follows emitted (item :: channel) base) (hfew : emitted.length < 2 ^ 64) :
    (sub.push item).Follows emitted channel base := by
  have hbound := h.bound
  have hlen : (sub.queue.items ++ item :: channel).length =
      emitted.length - (base + sub.seq + sub.queue.droppedSinceLastPop) := by
    rw [h.ahead, List.length_drop, List.length_zipIdx]
  rw [List.length_append, List.length_cons] at hlen
  obtain ⟨n, hn, hitems, hdropped⟩ := sub.queue.push_spec h.capacity (by omega) item channel
  have hdropped' : (sub.push item).queue.droppedSinceLastPop = sub.queue.droppedSinceLastPop + n := hdropped
  refine ⟨?_, ?_, ?_, h.stamped⟩
  · exact (sub.queue.push_capacity item).symm ▸ h.capacity
  · rw [hdropped']
    show base + sub.seq + _ ≤ _
    omega
  · rw [hdropped']
    show (sub.queue.push item).items ++ channel = _
    rw [hitems, h.ahead, List.drop_drop, Nat.add_assoc]
    rfl

/-- **What the writer stamps is the position, counted from where the subscriber joined.** -/
theorem Follows.write (h : sub.Follows emitted channel base) (hfew : emitted.length < 2 ^ 64)
    (hw : sub.write = some sub') : sub'.Follows emitted channel base := by
  unfold Subscriber.write at hw
  obtain ⟨⟨⟨⟨event, position⟩, dropped⟩, queue⟩, hpop, hsub⟩ := Option.bind_eq_some_iff.1 hw
  obtain ⟨hitems, rfl, hzero, hcap⟩ := DropOldestQueue.popBlocking_spec hpop
  have hbound := h.bound
  have hahead := h.ahead
  rw [hitems, List.cons_append] at hahead
  -- the popped event is the next one emitted
  obtain ⟨hposition, hevent, hrest⟩ := drop_zipIdx_cons hahead.symm
  have hlt := (List.getElem?_eq_some_iff.1 hevent).1
  have hseq : (sub.seq + (1 + sub.queue.droppedSinceLastPop) % 2 ^ 64) % 2 ^ 64 =
      sub.seq + (1 + sub.queue.droppedSinceLastPop) := by
    rw [Nat.mod_eq_of_lt (show 1 + sub.queue.droppedSinceLastPop < 2 ^ 64 by omega), Nat.mod_eq_of_lt (by omega)]
  simp only [hseq, pure, Option.some.injEq] at hsub
  subst hsub
  refine ⟨hcap ▸ h.capacity, ?_, ?_, ?_⟩
  · simp only [hzero]
    omega
  · simp only [hzero]
    rw [hrest]
    congr 1
    omega
  · intro d hd
    rcases List.mem_append.1 hd with hd | hd
    · exact h.stamped d hd
    · rw [List.mem_singleton.1 hd]
      refine ⟨hevent, ?_⟩
      dsimp only
      omega

end Subscriber

namespace Feed

variable {k : Capacities} {f f' : Feed} {act : FeedAct} {acts : List FeedAct} {u : Unit} {us : List Unit}

/-- The channel has room for the event a step emits, and it is not the `2 ^ 64`th. -/
def FindsRoom (k : Capacities) (f : Feed) : FeedAct → Prop
  | .offer _ => f.channel.length < k.channel ∧ f.emitted.length + 1 < 2 ^ 64
  | _ => True

instance (k : Capacities) (f : Feed) : DecidablePred (FindsRoom k f)
  | .offer _ => inferInstanceAs (Decidable (_ ∧ _))
  | .fanOut => .isTrue trivial
  | .accept => .isTrue trivial
  | .write _ _ => .isTrue trivial

/-- The channel holds the events emitted last, and every subscriber follows. -/
structure Numbered (f : Feed) : Prop where
  few : f.emitted.length < 2 ^ 64
  channel : ∃ base ≤ f.emitted.length, f.channel = f.emitted.zipIdx.drop base
  subscribers : ∀ id sub, f.subscribers id = some sub → ∃ base, sub.Follows f.emitted f.channel base

theorem Numbered.start : start.Numbered :=
  ⟨by simp [Feed.start], ⟨0, by simp [Feed.start], rfl⟩, by simp [Feed.start]⟩

/-- **One step**, if the event it emits finds room. -/
theorem Numbered.of_step (h : f.Numbered) (hroom : f.FindsRoom k act) (hstep : f.step k act = .ok (f', u)) :
    f'.Numbered := by
  obtain ⟨b, hb, hch⟩ := h.channel
  -- the channel and every queue see the same move, so each case is checked for both
  rcases step_cases hstep with ⟨event, rfl, hem, hsubs, hch'⟩ | ⟨item, rfl, hem, hch', hsubs⟩ | ⟨rfl, hem, hch', hsubs⟩ |
    ⟨i, ok, old, new, rfl, hem, hch', hold, hw, hsubs⟩
  · rw [if_pos hroom.1] at hch'
    refine ⟨?_, ⟨b, ?_, ?_⟩, fun id sub hsub => ?_⟩
    · rw [hem, List.length_append]
      exact hroom.2
    · rw [hem, List.length_append]
      omega
    · rw [hch', hem, hch, drop_zipIdx_snoc hb]
    · obtain ⟨base, hfollows⟩ := h.subscribers id sub (hsubs ▸ hsub)
      rw [hem, hch']
      exact ⟨base, hfollows.offer event⟩
  · refine ⟨hem ▸ h.few, ⟨b + 1, ?_, ?_⟩, fun id sub hsub => ?_⟩
    · have hlen := congrArg List.length hch
      rw [hch', List.length_cons, List.length_drop, List.length_zipIdx] at hlen
      rw [hem]
      omega
    · rw [hem, ← List.drop_drop, ← hch, hch']
      rfl
    · rw [hsubs] at hsub
      obtain ⟨old, hold, rfl⟩ := Option.map_eq_some_iff.1 hsub
      obtain ⟨base, hfollows⟩ := h.subscribers id old hold
      rw [hch'] at hfollows
      rw [hem]
      exact ⟨base, hfollows.push h.few⟩
  · refine ⟨hem ▸ h.few, ⟨b, hem ▸ hb, by rw [hch', hem, hch]⟩, fun id sub hsub => ?_⟩
    rw [hem, hch']
    rw [hsubs, Function.update_apply] at hsub
    split at hsub
    · -- a subscriber that joins starts with what waits in the channel
      obtain rfl := Option.some.inj hsub
      exact ⟨b, .new k.queue_pos hb hch⟩
    · exact h.subscribers id sub hsub
  · refine ⟨hem ▸ h.few, ⟨b, hem ▸ hb, by rw [hch', hem, hch]⟩, fun id sub hsub => ?_⟩
    rw [hem, hch']
    rw [hsubs, Function.update_apply] at hsub
    split at hsub
    · obtain ⟨base, hfollows⟩ := h.subscribers i old hold
      split at hsub
      · obtain rfl := Option.some.inj hsub
        exact ⟨base, hfollows.write h.few hw⟩
      · cases hsub
    · exact h.subscribers id sub hsub

/-- What was emitted along a run is what its steps offered. -/
theorem run_emitted (h : run (step k) f acts = .ok (f', us)) :
    f'.emitted = f.emitted ++ acts.filterMap FeedAct.offered := by
  refine run_log (fun f act f' u hstep => ?_) h
  rcases step_cases hstep with ⟨event, rfl, hem, -⟩ | ⟨item, rfl, hem, -⟩ | ⟨rfl, hem, -⟩ |
    ⟨id, ok, old, new, rfl, hem, -⟩
  · exact hem
  · rw [hem]
    exact (List.append_nil _).symm
  · rw [hem]
    exact (List.append_nil _).symm
  · rw [hem]
    exact (List.append_nil _).symm

end Feed

/-- **When losses show as gaps.** In every interleaving whose offers all find room in the channel, and with
fewer than `2 ^ 64` of them, the stamps of any two events a subscriber got are as far apart as the events
are in the sequence the engine emitted. -/
theorem gaps_show_losses (k : Capacities) {acts : List FeedAct}
    (hroom : Along (Feed.step k) (Feed.FindsRoom k) Feed.start acts) {f : Feed} {us : List Unit}
    (hrun : run (Feed.step k) Feed.start acts = .ok (f, us)) {id : SubscriberId} {sub : Subscriber}
    (hsub : f.subscribers id = some sub) :
    (∀ x ∈ sub.written, (acts.filterMap FeedAct.offered)[x.position]? = some x.event) ∧
    ∀ x ∈ sub.written, ∀ y ∈ sub.written, (y.seq : ℤ) - x.seq = y.position - x.position := by
  have hnumbered := run_inv Feed.Numbered (fun f act f' u h hr hstep => h.of_step hr hstep) Feed.Numbered.start hroom hrun
  obtain ⟨base, hfollows⟩ := hnumbered.subscribers id sub hsub
  have hem : f.emitted = acts.filterMap FeedAct.offered := Feed.run_emitted hrun
  refine ⟨fun x hx => ?_, fun x hx y hy => ?_⟩
  · rw [← hem]
    exact (hfollows.stamped x hx).1
  · have hx' := (hfollows.stamped x hx).2
    have hy' := (hfollows.stamped y hy).2
    omega

/-- One event is dropped by the subscriber's queue of one, and its stamp is skipped. -/
theorem gaps_show_losses_dropped :
    ∃ f us sub, run (Feed.step ⟨2, 1, by decide, by decide⟩) Feed.start
        [.accept, .offer (.trade 100 1 .buy), .offer (.trade 101 1 .buy), .fanOut, .fanOut, .write 1 true,
         .offer (.trade 102 1 .buy), .fanOut, .write 1 true] = .ok (f, us) ∧
      f.subscribers 1 = some sub ∧ sub.written = [⟨2, .trade 101 1 .buy, 1⟩, ⟨3, .trade 102 1 .buy, 2⟩] ∧
      ∀ x ∈ sub.written, ∀ y ∈ sub.written, (y.seq : ℤ) - x.seq = y.position - x.position := by
  obtain ⟨⟨f, us⟩, hrun, hwritten⟩ := exists_ok_of_decide (x := run (Feed.step ⟨2, 1, by decide, by decide⟩) Feed.start
      [.accept, .offer (.trade 100 1 .buy), .offer (.trade 101 1 .buy), .fanOut, .fanOut, .write 1 true,
       .offer (.trade 102 1 .buy), .fanOut, .write 1 true])
    (p := fun v => (v.1.subscribers 1).map Subscriber.written =
      some [⟨2, .trade 101 1 .buy, 1⟩, ⟨3, .trade 102 1 .buy, 2⟩]) (by decide +kernel)
  obtain ⟨sub, hsub, hw⟩ := Option.map_eq_some_iff.1 hwritten
  exact ⟨f, us, sub, hrun, hsub, hw, (gaps_show_losses _ (by decide +kernel) hrun hsub).2⟩

/-- An event that meets an empty queue is stamped next. -/
theorem Subscriber.write_push {k : Capacities} {sub : Subscriber} (hqueue : sub.queue = .new k.queue)
    (hfew : sub.seq + 1 < 2 ^ 64) (item : Event × ℕ) :
    (sub.push item).write = some ⟨sub.queue, sub.seq + 1, sub.written ++ [⟨sub.seq + 1, item.1, item.2⟩]⟩ := by
  have hpush : (sub.push item).queue = ⟨[item], 0, k.queue⟩ := by
    unfold Subscriber.push
    simp only [hqueue]
    exact DropOldestQueue.push_of_lt (q := .new k.queue) k.queue_pos item
  unfold Subscriber.write
  rw [hpush]
  show some (Subscriber.mk _ ((sub.seq + 1) % 2 ^ 64) (sub.written ++ [Delivered.mk ((sub.seq + 1) % 2 ^ 64) _ _])) = _
  rw [Nat.mod_eq_of_lt hfew, hqueue]
  rfl

namespace Feed

variable {k : Capacities} {f : Feed} {sub : Subscriber} {id : SubscriberId}

/-- As many events as the channel has room for. -/
theorem run_offers (event : Event) (n : ℕ) (hroom : f.channel.length + n ≤ k.channel) :
    ∃ f' us, run (step k) f (List.replicate n (.offer event)) = .ok (f', us) ∧
      f'.emitted = f.emitted ++ List.replicate n event ∧ f'.subscribers = f.subscribers ∧
      f'.channel = f.channel ++ (List.replicate n event).zipIdx f.emitted.length := by
  induction n generalizing f with
  | zero => exact ⟨f, [], rfl, by simp, rfl, by simp⟩
  | succ n ih =>
    obtain ⟨f₁, hstep, hem, hsubs, hch⟩ := f.step_offer k event
    rw [if_pos (by omega)] at hch
    obtain ⟨f', us, hrun, hem', hsubs', hch'⟩ := ih (f := f₁) (by rw [hch, List.length_append, List.length_singleton]; omega)
    refine ⟨f', () :: us, run_cons_ok hstep hrun, ?_, hsubs'.trans hsubs, ?_⟩
    · rw [hem', hem, List.append_assoc]
      rfl
    · rw [hch', hch, hem, List.length_append, List.append_assoc]
      rfl

/-- What waits in the channel goes to a subscriber with an empty queue, one event at a time. -/
theorem run_relay {channel : List (Event × ℕ)} (hch : f.channel = channel) (hsub : f.subscribers id = some sub)
    (hqueue : sub.queue = .new k.queue) (hfew : sub.seq + channel.length < 2 ^ 64) :
    ∃ f' us sub', run (step k) f (List.replicate channel.length [FeedAct.fanOut, .write id true]).flatten = .ok (f', us) ∧
      f'.emitted = f.emitted ∧ f'.channel = [] ∧ f'.subscribers id = some sub' ∧ sub'.queue = .new k.queue ∧
      sub'.seq = sub.seq + channel.length ∧
      sub'.written = sub.written ++ (channel.zipIdx (sub.seq + 1)).map (fun x => ⟨x.2, x.1.1, x.1.2⟩) := by
  -- on what waits: a fan-out and a write take its first event to the socket
  induction channel generalizing f sub with
  | nil => exact ⟨f, [], sub, rfl, rfl, hch, hsub, hqueue, rfl, (List.append_nil _).symm⟩
  | cons item channel ih =>
    rw [List.length_cons] at hfew
    have hwrite := Subscriber.write_push hqueue (by omega) item
    have hfan : f.step k .fanOut = .ok (⟨f.emitted, channel, fun id => (f.subscribers id).map (fun sub => sub.push item),
        f.nextId⟩, ()) := by
      simp only [step, hch]
    obtain ⟨f', us, sub', hrun, hem, hempty, hsub', hqueue', hseq, hwritten⟩ := @ih
      ⟨f.emitted, channel, Function.update (fun id => (f.subscribers id).map (fun sub => sub.push item)) id
        (some ⟨sub.queue, sub.seq + 1, sub.written ++ [⟨sub.seq + 1, item.1, item.2⟩]⟩), f.nextId⟩
      ⟨sub.queue, sub.seq + 1, sub.written ++ [⟨sub.seq + 1, item.1, item.2⟩]⟩ rfl (by simp) hqueue
      (by show sub.seq + 1 + _ < _; omega)
    refine ⟨f', () :: () :: us, sub', ?_, hem, hempty, hsub', hqueue', ?_, ?_⟩
    · rw [List.length_cons, List.replicate_succ, List.flatten_cons]
      refine run_cons_ok hfan (run_cons_ok ?_ hrun)
      simp only [step, hsub, Option.map_some, Option.bind_some, hwrite, if_true]
    · rw [hseq, List.length_cons]
      show sub.seq + 1 + _ = _
      omega
    · rw [hwritten, List.append_assoc]
      rfl

/-- A subscriber connects, then the fan-out thread falls one event behind what the channel holds, catches
up, and one more event goes through. -/
def overrun (k : Capacities) (event : Event) : List FeedAct :=
  (.accept :: List.replicate k.channel (.offer event)) ++ .offer event ::
    ((List.replicate k.channel [FeedAct.fanOut, .write 1 true]).flatten ++ [.offer event, .fanOut, .write 1 true])

/-- **Whatever the capacities, an overrun leaves no gap**: the last two events have consecutive stamps, and the
event between them is lost. -/
theorem run_overrun (k : Capacities) (hfew : k.channel + 1 < 2 ^ 64) (event : Event) :
    ∃ f us sub, run (step k) start (overrun k event) = .ok (f, us) ∧ f.subscribers 1 = some sub ∧
      Delivered.mk k.channel event (k.channel - 1) ∈ sub.written ∧
      Delivered.mk (k.channel + 1) event (k.channel + 1) ∈ sub.written := by
  have hpos := k.channel_pos
  obtain ⟨f₁, us₁, hfill, hem₁, hsubs₁, hch₁⟩ := run_offers (k := k)
    (f := ⟨[], [], Function.update (fun _ => none) 1 (some (.new k.queue)), 2⟩) event k.channel (by simp)
  rw [List.nil_append] at hem₁
  rw [List.nil_append, List.length_nil] at hch₁
  have hwaiting : ((List.replicate k.channel event).zipIdx).length = k.channel := by
    rw [List.length_zipIdx, List.length_replicate]
  -- the channel is full: this one is lost
  obtain ⟨f₂, hlost, hem₂, hsubs₂, hch₂⟩ := f₁.step_offer k event
  rw [hch₁, hwaiting, if_neg (lt_irrefl _)] at hch₂
  have hjoined : f₂.subscribers 1 = some (.new k.queue) := by
    rw [hsubs₂, hsubs₁]
    simp
  obtain ⟨f₃, us₃, sub₃, hrelay, hem₃, hch₃, hsub₃, hqueue₃, hseq₃, hwritten₃⟩ := run_relay hch₂ hjoined rfl (by
    rw [hwaiting]
    show 0 + _ < _
    omega)
  rw [hwaiting] at hrelay hseq₃
  -- the next one finds the channel empty
  obtain ⟨f₄, hnext, -, hsubs₄, hch₄⟩ := f₃.step_offer k event
  rw [hch₃, if_pos (show ([] : List (Event × ℕ)).length < k.channel from hpos), List.nil_append] at hch₄
  have hposition : f₃.emitted.length = k.channel + 1 := by
    rw [hem₃, hem₂, hem₁, List.length_append, List.length_replicate, List.length_singleton]
  have hstamp : sub₃.seq = k.channel := hseq₃.trans (Nat.zero_add _)
  rw [hposition] at hch₄
  obtain ⟨f₅, us₅, sub₅, hlast, -, -, hsub₅, -, -, hwritten₅⟩ := run_relay hch₄ (hsubs₄ ▸ hsub₃) hqueue₃ (by
    rw [hstamp]
    exact hfew)
  refine ⟨f₅, _, sub₅, run_append_ok (run_cons_ok rfl hfill) (run_cons_ok hlost (run_append_ok hrelay
    (run_cons_ok hnext hlast))), hsub₅, ?_, ?_⟩
  · rw [hwritten₅, hwritten₃]
    refine List.mem_append_left _ (List.mem_append_right _ (List.mem_map.2 ⟨((event, k.channel - 1), k.channel), ?_, rfl⟩))
    rw [List.mk_mem_zipIdx_iff_le_and_getElem?_sub]
    refine ⟨hpos, ?_⟩
    show (List.replicate k.channel event).zipIdx[k.channel - 1]? = _
    rw [List.getElem?_zipIdx, List.getElem?_replicate, if_pos (by omega)]
    simp
  · rw [hwritten₅, hstamp]
    exact List.mem_append_right _ List.mem_cons_self

end Feed

/-- **A full channel hides a loss**: with the capacities of the program, 1025 events come while the fan-out
thread does not. The last of them is lost, and the stamps of the events on either side of it are consecutive. -/
theorem full_channel_hides_loss :
    ∃ f us sub, run (Feed.step .default) Feed.start (Feed.overrun .default (.trade 100 1 .buy)) = .ok (f, us) ∧
      f.subscribers 1 = some sub ∧ ∃ x ∈ sub.written, ∃ y ∈ sub.written, y.seq = x.seq + 1 ∧
      ¬ (y.seq : ℤ) - x.seq = y.position - x.position := by
  obtain ⟨f, us, sub, hrun, hsub, hx, hy⟩ := Feed.run_overrun .default (by decide) (.trade 100 1 .buy)
  exact ⟨f, us, sub, hrun, hsub, _, hx, _, hy, rfl, by decide⟩

end MatchingEngine
