import MatchingEngine.Marketdata.Feed

/-!
# Stamps are push numbers

One subscriber's queue and its writer, under any schedule of pushes and pops. The writer adds one and
the drops counted since the last pop, so a stamp counts everything pushed up to the event it stamps,
delivered or dropped (`stamps_count_pushes`). The counters are `u64`: the `2 ^ 64`th event pushed is
stamped zero (`stamps_wrap`).

* `Line.Counted`: the last stamp, the drops since and the queue, against all that was pushed.
-/

namespace MatchingEngine

/-- A call on the queue. -/
inductive QueueAct
  | push (event : Event)
  | pop
  deriving DecidableEq

/-- The event a call pushes. -/
def QueueAct.pushed : QueueAct → Option Event
  | .push event => some event
  | .pop => none

/-- A subscriber, all that was pushed to it, and what its queue dropped. -/
structure Line where
  pushed : List Event
  dropped : List (Event × ℕ)
  sub : Subscriber

namespace Line

def start (capacity : ℕ) : Line := ⟨[], [], .new capacity⟩

/-- A call that takes effect; an event is pushed with its place among all that were. -/
def step (l : Line) : QueueAct → Except Blocked (Line × Unit)
  | .push event =>
    .ok (⟨l.pushed ++ [event], l.dropped ++ l.sub.queue.evicted.toList, l.sub.push (event, l.pushed.length)⟩, ())
  | .pop =>
    match l.sub.write with
    | none => .error .waiting
    | some sub => .ok ({ l with sub := sub }, ())

variable {l l' : Line} {act : QueueAct} {acts : List QueueAct} {u : Unit} {us : List Unit} {cap n d : ℕ}

/-- **What one call does.** -/
theorem step_cases (h : l.step act = .ok (l', u)) :
    (∃ event, act = .push event ∧ l' = ⟨l.pushed ++ [event], l.dropped ++ l.sub.queue.evicted.toList,
      l.sub.push (event, l.pushed.length)⟩) ∨
    (∃ sub, act = .pop ∧ l.sub.write = some sub ∧ l' = { l with sub := sub }) := by
  cases act with
  | push event =>
    left
    cases h
    exact ⟨event, rfl, rfl⟩
  | pop =>
    right
    simp only [step] at h
    split at h
    · cases h
    · next sub hw =>
      cases h
      exact ⟨sub, rfl, hw, rfl⟩

/-- The last event delivered was the `n`th pushed, and `d` were dropped since. The queue holds what was pushed
behind these, and what came before was delivered or dropped. -/
structure Counted (cap n d : ℕ) (l : Line) : Prop where
  capacity : l.sub.queue.capacity = cap
  room : l.sub.queue.items.length ≤ cap
  seq : l.sub.seq = n % 2 ^ 64
  count : l.sub.queue.droppedSinceLastPop % 2 ^ 64 = d % 2 ^ 64
  bound : n + d ≤ l.pushed.length
  ahead : l.sub.queue.items = l.pushed.zipIdx.drop (n + d)
  stamped : ∀ x ∈ l.sub.written,
    l.pushed[x.position]? = some x.event ∧ x.seq = (x.position + 1) % 2 ^ 64 ∧ x.position < n
  sorted : l.sub.written.Pairwise (fun x y => x.position < y.position)
  dropped : ∀ y ∈ l.dropped, l.pushed[y.2]? = some y.1 ∧ y.2 < n + d
  lost : ∀ p < n + d, (∀ x ∈ l.sub.written, x.position ≠ p) ↔ p ∈ l.dropped.map Prod.snd

theorem Counted.start (cap : ℕ) : (start cap).Counted cap 0 0 :=
  ⟨rfl, Nat.zero_le _, rfl, rfl, Nat.zero_le _, rfl, by simp [Line.start, Subscriber.new], List.Pairwise.nil,
    by simp [Line.start], by simp⟩

/-- The front of the queue. -/
theorem Counted.front {event : Event} {position : ℕ} {rest : List (Event × ℕ)} (h : l.Counted cap n d)
    (hitems : l.sub.queue.items = (event, position) :: rest) :
    position = n + d ∧ l.pushed[position]? = some event ∧ rest = l.pushed.zipIdx.drop (n + d + 1) := by
  have hahead := h.ahead
  rw [hitems] at hahead
  exact drop_zipIdx_cons hahead.symm

/-- What a push drops is the oldest item queued. -/
theorem Counted.evicts {y : Event × ℕ} (h : l.Counted cap n d) (hy : y ∈ l.sub.queue.evicted) :
    l.sub.queue.items.length = cap ∧ ∃ rest, l.sub.queue.items = y :: rest ∧ ∀ z ∈ rest, y.2 < z.2 := by
  unfold DropOldestQueue.evicted at hy
  split at hy
  · next hfull =>
    rw [h.capacity] at hfull
    obtain ⟨rest, hitems⟩ := List.head?_eq_some_iff.1 hy
    refine ⟨le_antisymm h.room hfull, rest, hitems, fun z hz => ?_⟩
    obtain ⟨hposition, -, hrest⟩ := h.front hitems
    rw [hrest] at hz
    obtain ⟨j, hj⟩ := List.mem_iff_getElem?.1 hz
    rw [List.getElem?_drop, List.getElem?_zipIdx] at hj
    obtain ⟨event, -, rfl⟩ := Option.map_eq_some_iff.1 hj
    dsimp only
    omega
  · cases hy

/-- **A push**: one more event at the back, and what it drops at the front. -/
theorem Counted.push (h : l.Counted cap n d) (hcap : 1 ≤ cap) (event : Event) :
    Counted cap n (d + l.sub.queue.evicted.toList.length)
      ⟨l.pushed ++ [event], l.dropped ++ l.sub.queue.evicted.toList, l.sub.push (event, l.pushed.length)⟩ := by
  have hbound := h.bound
  have hcapacity := h.capacity
  obtain ⟨hitems, hcount⟩ := l.sub.queue.push_evicted (hcapacity ▸ hcap) (event, l.pushed.length)
  have hback : l.sub.queue.items ++ [(event, l.pushed.length)] = (l.pushed ++ [event]).zipIdx.drop (n + d) := by
    rw [h.ahead, drop_zipIdx_snoc hbound]
  have hone : l.sub.queue.evicted.toList.length ≤ 1 := Option.length_toList_le
  have hkept : ∀ {p : ℕ} {e : Event}, l.pushed[p]? = some e → (l.pushed ++ [event])[p]? = some e := by
    intro p e hp
    rw [List.getElem?_append_left (List.getElem?_eq_some_iff.1 hp).1]
    exact hp
  -- the drop, if there is one, is the item at the front
  have hevicted : ∀ y ∈ l.sub.queue.evicted.toList, l.pushed[y.2]? = some y.1 ∧ y.2 = n + d := by
    intro y hy
    obtain ⟨-, rest, hfront, -⟩ := h.evicts (Option.mem_toList.1 hy)
    obtain ⟨hposition, hevent, -⟩ := h.front hfront
    exact ⟨hevent, hposition⟩
  refine ⟨(l.sub.queue.push_capacity _).trans hcapacity, ?_, h.seq, ?_, ?_, ?_, ?_, h.sorted, ?_, ?_⟩
  · rw [← hcapacity]
    exact l.sub.queue.push_length (hcapacity ▸ hcap) (hcapacity ▸ h.room) _
  · have hd := h.count
    show (l.sub.queue.push _).droppedSinceLastPop % _ = _
    omega
  · rw [List.length_append, List.length_singleton]
    omega
  · show (l.sub.queue.push _).items = _
    rw [← Nat.add_assoc, ← List.drop_drop, ← hback, hitems, List.drop_left]
  · intro x hx
    obtain ⟨hevent, hrest⟩ := h.stamped x hx
    exact ⟨hkept hevent, hrest⟩
  · intro y hy
    rcases List.mem_append.1 hy with hy | hy
    · obtain ⟨hevent, hlt⟩ := h.dropped y hy
      exact ⟨hkept hevent, by omega⟩
    · obtain ⟨hevent, hposition⟩ := hevicted y hy
      have hpos := List.length_pos_of_mem hy
      exact ⟨hkept hevent, by omega⟩
  · intro p hp
    rw [List.map_append, List.mem_append]
    by_cases hold : p < n + d
    · rw [← h.lost p hold]
      refine (or_iff_left fun hnew => ?_).symm
      obtain ⟨y, hy, rfl⟩ := List.mem_map.1 hnew
      have hposition := (hevicted y hy).2
      omega
    · -- the item dropped now: nothing behind the last stamp was delivered
      obtain ⟨y, hy⟩ := List.exists_mem_of_length_pos (show 0 < l.sub.queue.evicted.toList.length by omega)
      have hposition := (hevicted y hy).2
      refine iff_of_true (fun x hx => ?_) (.inr (List.mem_map.2 ⟨y, hy, by omega⟩))
      have hlt := (h.stamped x hx).2.2
      omega

/-- **A pop**: the front of the queue is delivered, and its number is the stamp. -/
theorem Counted.write {sub : Subscriber} (h : l.Counted cap n d) (hw : l.sub.write = some sub) :
    Counted cap (n + d + 1) 0 { l with sub := sub } := by
  unfold Subscriber.write at hw
  obtain ⟨⟨⟨⟨event, position⟩, dropped⟩, queue⟩, hpop, hsub⟩ := Option.bind_eq_some_iff.1 hw
  obtain ⟨hitems, rfl, hzero, hcapacity⟩ := DropOldestQueue.popBlocking_spec hpop
  obtain ⟨rfl, hevent, hrest⟩ := h.front hitems
  have hlt := (List.getElem?_eq_some_iff.1 hevent).1
  have hstamp : (l.sub.seq + (1 + l.sub.queue.droppedSinceLastPop) % 2 ^ 64) % 2 ^ 64 = (n + d + 1) % 2 ^ 64 := by
    have hseq := h.seq
    have hcount := h.count
    omega
  simp only [hstamp, pure, Option.some.injEq] at hsub
  subst hsub
  have hroom := h.room
  rw [hitems, List.length_cons] at hroom
  refine ⟨hcapacity.trans h.capacity, by dsimp only; omega, rfl, by dsimp only; rw [hzero], hlt, hrest, ?_, ?_, ?_, ?_⟩
  · intro x hx
    rcases List.mem_append.1 hx with hx | hx
    · obtain ⟨hxe, hxs, hxlt⟩ := h.stamped x hx
      exact ⟨hxe, hxs, by omega⟩
    · rw [List.mem_singleton.1 hx]
      exact ⟨hevent, rfl, Nat.lt_succ_self _⟩
  · rw [List.pairwise_append]
    refine ⟨h.sorted, List.pairwise_singleton _ _, fun x hx y hy => ?_⟩
    rw [List.mem_singleton.1 hy]
    have hxlt := (h.stamped x hx).2.2
    dsimp only
    omega
  · intro y hy
    obtain ⟨hye, hylt⟩ := h.dropped y hy
    exact ⟨hye, by omega⟩
  · intro p hp
    simp only [List.forall_mem_append, List.forall_mem_singleton]
    by_cases hold : p < n + d
    · rw [h.lost p hold]
      exact and_iff_left (by omega)
    · -- the event delivered now was not dropped
      obtain rfl : p = n + d := by omega
      refine iff_of_false (fun hnot => hnot.2 rfl) fun hdrop => ?_
      obtain ⟨y, hy, hposition⟩ := List.mem_map.1 hdrop
      have hylt := (h.dropped y hy).2
      omega

theorem Counted.of_step (hcap : 1 ≤ cap) (h : ∃ n d, l.Counted cap n d) (hstep : l.step act = .ok (l', u)) :
    ∃ n d, l'.Counted cap n d := by
  obtain ⟨n, d, h⟩ := h
  rcases step_cases hstep with ⟨event, rfl, rfl⟩ | ⟨sub, rfl, hw, rfl⟩
  · exact ⟨n, _, h.push hcap event⟩
  · exact ⟨_, 0, h.write hw⟩

/-- **Whole schedules.** -/
theorem counted_run (hcap : 1 ≤ cap) (hrun : run step (start cap) acts = .ok (l, us)) : ∃ n d, l.Counted cap n d :=
  run_inv (fun l => ∃ n d, l.Counted cap n d) (fun _ _ _ _ h _ hstep => Counted.of_step hcap h hstep) ⟨0, 0, .start cap⟩
    (along_of_forall (Q := fun _ => True) fun _ _ => trivial) hrun

/-- What was pushed along a schedule. -/
theorem run_pushed (hrun : run step l acts = .ok (l', us)) :
    l'.pushed = l.pushed ++ acts.filterMap QueueAct.pushed := by
  refine run_log (fun l act l' u hstep => ?_) hrun
  rcases step_cases hstep with ⟨event, rfl, rfl⟩ | ⟨sub, rfl, -, rfl⟩
  · rfl
  · exact (List.append_nil _).symm

/-- A drop of a schedule, at the push it made room for: the queue was full, and the item dropped was the oldest
in it. -/
def DroppedAt (cap : ℕ) (acts : List QueueAct) (y : Event × ℕ) : Prop :=
  ∃ before event after l us, acts = before ++ .push event :: after ∧ run step (start cap) before = .ok (l, us) ∧
    l.sub.queue.items.length = cap ∧ ∃ rest, l.sub.queue.items = y :: rest ∧ ∀ z ∈ rest, y.2 < z.2

theorem DroppedAt.append {y : Event × ℕ} (h : DroppedAt cap acts y) (more : List QueueAct) :
    DroppedAt cap (acts ++ more) y := by
  obtain ⟨before, event, after, l, us, rfl, hl⟩ := h
  exact ⟨before, event, after ++ more, l, us, by simp, hl⟩

/-- **Every drop is of the oldest item queued.** -/
theorem droppedAt_run (hcap : 1 ≤ cap) (hrun : run step (start cap) acts = .ok (l, us)) :
    ∀ y ∈ l.dropped, DroppedAt cap acts y := by
  -- on the schedule from its end: a drop is made by the last call, or was there before it
  induction acts using List.reverseRecOn generalizing l us with
  | nil =>
    simp only [run_nil, Except.ok.injEq, Prod.mk.injEq] at hrun
    rw [← hrun.1]
    intro y hy
    cases hy
  | append_singleton acts act ih =>
    obtain ⟨l₁, us₁, us₂, hbefore, hlast, -⟩ := run_append_inv hrun
    obtain ⟨l₂, u, us₃, hstep, hend, -⟩ := run_cons_inv hlast
    simp only [run_nil, Except.ok.injEq, Prod.mk.injEq] at hend
    obtain rfl := hend.1
    intro y hy
    rcases step_cases hstep with ⟨event, rfl, rfl⟩ | ⟨sub, rfl, -, rfl⟩
    · rcases List.mem_append.1 hy with hy | hy
      · exact (ih hbefore y hy).append _
      · obtain ⟨n, d, hcounted⟩ := counted_run hcap hbefore
        exact ⟨acts, event, [], l₁, us₁, rfl, hbefore, hcounted.evicts (Option.mem_toList.1 hy)⟩
    · exact (ih hbefore y hy).append _

end Line

/-- **A stamp is the number of the event among all pushed.** For every capacity and every schedule of pushes and
pops: the event delivered with a stamp was pushed, and its number, as the `u64` it is counted in, is the stamp; so the
stamp is the number as long as fewer than `2 ^ 64` events were pushed, and then stamps increase, as numbers
always do. The queue is within its capacity. What was pushed before a delivered event and not delivered is what the
queue dropped, and each drop was of the oldest item queued at that time. -/
theorem stamps_count_pushes {cap : ℕ} (hcap : 1 ≤ cap) {acts : List QueueAct} {l : Line} {us : List Unit}
    (hrun : run Line.step (Line.start cap) acts = .ok (l, us)) :
    (∀ x ∈ l.sub.written, (acts.filterMap QueueAct.pushed)[x.position]? = some x.event ∧
      x.seq = (x.position + 1) % 2 ^ 64) ∧
    l.sub.written.Pairwise (fun x y => x.position < y.position) ∧
    ((acts.filterMap QueueAct.pushed).length < 2 ^ 64 →
      (∀ x ∈ l.sub.written, x.seq = x.position + 1) ∧ l.sub.written.Pairwise (fun x y => x.seq < y.seq)) ∧
    l.sub.queue.items.length ≤ cap ∧
    (∀ x ∈ l.sub.written, ∀ p < x.position, (∀ y ∈ l.sub.written, y.position ≠ p) ↔ p ∈ l.dropped.map Prod.snd) ∧
    ∀ y ∈ l.dropped, (acts.filterMap QueueAct.pushed)[y.2]? = some y.1 ∧ Line.DroppedAt cap acts y := by
  obtain ⟨n, d, h⟩ := Line.counted_run hcap hrun
  have hpushed : l.pushed = acts.filterMap QueueAct.pushed := Line.run_pushed hrun
  rw [← hpushed]
  have hexact : l.pushed.length < 2 ^ 64 → ∀ x ∈ l.sub.written, x.seq = x.position + 1 := by
    intro hfew x hx
    obtain ⟨hevent, hseq, -⟩ := h.stamped x hx
    have hlt := (List.getElem?_eq_some_iff.1 hevent).1
    rw [hseq, Nat.mod_eq_of_lt (by omega)]
  refine ⟨fun x hx => ?_, h.sorted, fun hfew => ⟨hexact hfew, ?_⟩, h.room, fun x hx p hp => ?_, fun y hy => ?_⟩
  · obtain ⟨hevent, hseq, -⟩ := h.stamped x hx
    exact ⟨hevent, hseq⟩
  · refine h.sorted.imp_of_mem fun {x y} hx hy hxy => ?_
    rw [hexact hfew x hx, hexact hfew y hy]
    omega
  · have hlt := (h.stamped x hx).2.2
    exact h.lost p (by omega)
  · exact ⟨(h.dropped y hy).1, Line.droppedAt_run hcap hrun y hy⟩

/-- A queue of two drops the first and the third of five events; the stamps of the others are their numbers. -/
theorem stamps_count_pushes_two_drops :
    ∃ l us, run Line.step (Line.start 2)
        [.push (.trade 1 1 .buy), .push (.trade 2 1 .buy), .push (.trade 3 1 .buy), .pop, .push (.trade 4 1 .buy),
         .push (.trade 5 1 .buy), .pop, .pop] = .ok (l, us) ∧
      l.sub.written = [⟨2, .trade 2 1 .buy, 1⟩, ⟨4, .trade 4 1 .buy, 3⟩, ⟨5, .trade 5 1 .buy, 4⟩] ∧
      l.sub.written.Pairwise (fun x y => x.seq < y.seq) ∧
      (∀ x ∈ l.sub.written, ∀ p < x.position, (∀ y ∈ l.sub.written, y.position ≠ p) ↔ p ∈ l.dropped.map Prod.snd) ∧
      l.dropped = [(.trade 1 1 .buy, 0), (.trade 3 1 .buy, 2)] := by
  obtain ⟨⟨l, us⟩, hrun, hwritten, hdropped⟩ := exists_ok_of_decide (x := run Line.step (Line.start 2)
      [.push (.trade 1 1 .buy), .push (.trade 2 1 .buy), .push (.trade 3 1 .buy), .pop, .push (.trade 4 1 .buy),
       .push (.trade 5 1 .buy), .pop, .pop])
    (p := fun v => v.1.sub.written = [⟨2, .trade 2 1 .buy, 1⟩, ⟨4, .trade 4 1 .buy, 3⟩, ⟨5, .trade 5 1 .buy, 4⟩] ∧
      v.1.dropped = [(.trade 1 1 .buy, 0), (.trade 3 1 .buy, 2)]) (by decide +kernel)
  obtain ⟨-, -, hfew, -, hlost, -⟩ := stamps_count_pushes (by decide) hrun
  exact ⟨l, us, hrun, hwritten, (hfew (by decide)).2, hlost, hdropped⟩

/-- A queue of one holds the last of the events pushed to it, and has counted the others. -/
theorem Line.run_pushes (event : Event) (n : ℕ) :
    ∃ dropped us, run Line.step (Line.start 1) (List.replicate (n + 1) (.push event)) =
      .ok (⟨List.replicate (n + 1) event, dropped, ⟨⟨[(event, n)], n % 2 ^ 64, 1⟩, 0, []⟩⟩, us) := by
  induction n with
  | zero => exact ⟨[], [()], rfl⟩
  | succ n ih =>
    obtain ⟨dropped, us, hrun⟩ := ih
    refine ⟨dropped ++ [(event, n)], us ++ [()], ?_⟩
    rw [List.replicate_succ' (n := n + 1), List.replicate_succ' (n := n + 1)]
    refine run_append_ok hrun (run_cons_ok ?_ rfl)
    have hcount : (n % 2 ^ 64 + 1) % 2 ^ 64 = (n + 1) % 2 ^ 64 := Nat.mod_add_mod n (2 ^ 64) 1
    have hlength : (List.replicate (n + 1) event).length = n + 1 := List.length_replicate
    show Except.ok (Line.mk _ _
      ⟨⟨[(event, (List.replicate (n + 1) event).length)], (n % 2 ^ 64 + 1) % 2 ^ 64, 1⟩, 0, []⟩, ()) = _
    rw [hcount, hlength]
    rfl

/-- The last of them, popped. -/
theorem Line.run_pushes_pop (event : Event) (n : ℕ) :
    ∃ l us, run Line.step (Line.start 1) (List.replicate (n + 1) (.push event) ++ [.pop]) = .ok (l, us) ∧
      ⟨(0 + (1 + n % 2 ^ 64) % 2 ^ 64) % 2 ^ 64, event, n⟩ ∈ l.sub.written := by
  obtain ⟨dropped, us, hrun⟩ := Line.run_pushes event n
  refine ⟨_, us ++ [()], run_append_ok hrun (run_cons_ok rfl rfl), List.mem_singleton_self _⟩

/-- **Stamps wrap**: the `2 ^ 64`th event pushed is delivered with stamp zero. -/
theorem stamps_wrap :
    ∃ l us, run Line.step (Line.start 1) (List.replicate (2 ^ 64) (.push (.trade 100 1 .buy)) ++ [.pop]) = .ok (l, us) ∧
      ∃ x ∈ l.sub.written, x.position = 2 ^ 64 - 1 ∧ x.seq = 0 ∧ ¬ x.seq = x.position + 1 := by
  obtain ⟨n, hn⟩ : ∃ n, 2 ^ 64 = n + 1 := ⟨2 ^ 64 - 1, by norm_num⟩
  obtain ⟨l, us, hrun, hx⟩ := Line.run_pushes_pop (.trade 100 1 .buy) n
  rw [← hn] at hrun
  have hzero : (0 + (1 + n % 2 ^ 64) % 2 ^ 64) % 2 ^ 64 = 0 := by omega
  rw [hzero] at hx
  refine ⟨l, us, hrun, _, hx, ?_, rfl, ?_⟩
  · dsimp only
    omega
  · dsimp only
    omega

end MatchingEngine
