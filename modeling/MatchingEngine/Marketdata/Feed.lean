import MatchingEngine.Core.Types
import MatchingEngine.Lib.Run

/-!
# The market-data feed

`marketdata::queue`, `marketdata::subscriber`, and the `try_send` of the matching thread. Three
kinds of threads share the work and run in any order: the matching thread offers each event to a
bounded channel, the fan-out thread takes one event from the channel and pushes it onto the queue of
every subscriber, and each subscriber's writer pops one event, stamps it and writes it out. A lock
makes each of these one step; a step a thread would have to wait for cannot be taken.

An event travels with its position among all events offered. No step looks at it: it is there so
that what a subscriber got can be compared with what the engine emitted.

* `drop_zipIdx_snoc`, `drop_zipIdx_cons`: the back and the front of what is left of a numbered list.
* `DropOldestQueue.push_spec`, `DropOldestQueue.popBlocking_spec`: the queue, against what is still
  to come behind it.
* `Feed.step_cases`: what one step does.
-/

namespace MatchingEngine

/-- One more element at the back. -/
theorem drop_zipIdx_snoc {α : Type*} {l : List α} {k : ℕ} (h : k ≤ l.length) (x : α) :
    (l ++ [x]).zipIdx.drop k = l.zipIdx.drop k ++ [(x, l.length)] := by
  rw [List.zipIdx_append, List.drop_append_of_le_length (by rw [List.length_zipIdx]; exact h)]
  simp

/-- The element at the front, and its number. -/
theorem drop_zipIdx_cons {α : Type*} {l : List α} {k n : ℕ} {x : α} {rest : List (α × ℕ)}
    (h : l.zipIdx.drop k = (x, n) :: rest) : n = k ∧ l[n]? = some x ∧ rest = l.zipIdx.drop (k + 1) := by
  have hlt : k < l.zipIdx.length := by
    by_contra hge
    rw [List.drop_eq_nil_of_le (by omega)] at h
    cases h
  rw [List.drop_eq_getElem_cons hlt, List.cons.injEq, List.getElem_zipIdx] at h
  obtain ⟨hhead, hrest⟩ := h
  obtain ⟨rfl, hn⟩ := Prod.mk.inj hhead
  rw [List.length_zipIdx] at hlt
  obtain rfl : n = k := by omega
  exact ⟨rfl, List.getElem?_eq_getElem hlt, hrest.symm⟩

/-- `DropOldestQueue`, oldest item first, with the count of drops since the last pop. -/
structure DropOldestQueue (α : Type*) where
  items : List α
  droppedSinceLastPop : ℕ
  capacity : ℕ

namespace DropOldestQueue

variable {α : Type*} {q q' : DropOldestQueue α} {event : α} {rest : List α} {dropped : ℕ}

def new (capacity : ℕ) : DropOldestQueue α := ⟨[], 0, capacity⟩

/-- Never blocks: a full queue drops its oldest item and counts the drop. -/
def push (q : DropOldestQueue α) (event : α) : DropOldestQueue α :=
  if q.items.length ≥ q.capacity then
    { q with items := q.items.tail ++ [event], droppedSinceLastPop := (q.droppedSinceLastPop + 1) % 2 ^ 64 }
  else { q with items := q.items ++ [event] }

/-- The oldest item and the drops before it; there is nothing to return while the queue is empty. -/
def popBlocking (q : DropOldestQueue α) : Option ((α × ℕ) × DropOldestQueue α) :=
  match q.items with
  | [] => none
  | event :: items => some ((event, q.droppedSinceLastPop), { q with items := items, droppedSinceLastPop := 0 })

/-- The item the next push drops. -/
def evicted (q : DropOldestQueue α) : Option α := if q.items.length ≥ q.capacity then q.items.head? else none

@[simp] theorem push_capacity (q : DropOldestQueue α) (event : α) : (q.push event).capacity = q.capacity := by
  unfold push
  split
  · rfl
  · rfl

theorem push_of_lt (h : q.items.length < q.capacity) (event : α) :
    q.push event = { q with items := q.items ++ [event] } := by
  unfold push
  rw [if_neg (Nat.not_le.2 h)]

/-- The queue never holds more than its capacity. -/
theorem push_length (hcap : 1 ≤ q.capacity) (h : q.items.length ≤ q.capacity) (event : α) :
    (q.push event).items.length ≤ q.capacity := by
  by_cases hfull : q.items.length ≥ q.capacity
  · unfold push
    rw [if_pos hfull, List.length_append, List.length_tail, List.length_singleton]
    omega
  · rw [push_of_lt (Nat.not_le.1 hfull), List.length_append, List.length_singleton]
    omega

/-- What a push drops is what it takes off the front. -/
theorem push_evicted (hcap : 1 ≤ q.capacity) (event : α) :
    q.items ++ [event] = q.evicted.toList ++ (q.push event).items ∧
      (q.push event).droppedSinceLastPop % 2 ^ 64 = (q.droppedSinceLastPop + q.evicted.toList.length) % 2 ^ 64 := by
  by_cases hfull : q.items.length ≥ q.capacity
  · -- a full queue has an item to drop
    obtain ⟨x, xs, hx⟩ := List.exists_cons_of_length_pos (show 0 < q.items.length by omega)
    unfold push evicted
    rw [if_pos hfull, if_pos hfull, hx]
    exact ⟨rfl, Nat.mod_mod _ _⟩
  · rw [push_of_lt (Nat.not_le.1 hfull)]
    unfold evicted
    rw [if_neg hfull]
    exact ⟨rfl, rfl⟩

/-- **A push moves the front of the stream on by what it counts.** -/
theorem push_spec (hcap : 1 ≤ q.capacity) (hfew : q.droppedSinceLastPop + 1 < 2 ^ 64) (event : α) (rest : List α) :
    ∃ n ≤ 1, (q.push event).items ++ rest = (q.items ++ event :: rest).drop n ∧
      (q.push event).droppedSinceLastPop = q.droppedSinceLastPop + n := by
  by_cases hfull : q.items.length ≥ q.capacity
  · unfold push
    refine ⟨1, le_refl _, ?_, ?_⟩
    · -- a full queue has an item to drop
      obtain ⟨x, xs, hx⟩ := List.exists_cons_of_length_pos (show 0 < q.items.length by omega)
      rw [if_pos hfull, hx]
      simp
    · rw [if_pos hfull]
      exact Nat.mod_eq_of_lt hfew
  · rw [push_of_lt (Nat.not_le.1 hfull)]
    exact ⟨0, Nat.zero_le _, by simp, rfl⟩

theorem popBlocking_spec (h : q.popBlocking = some ((event, dropped), q')) :
    q.items = event :: q'.items ∧ dropped = q.droppedSinceLastPop ∧ q'.droppedSinceLastPop = 0 ∧
      q'.capacity = q.capacity := by
  unfold popBlocking at h
  split at h
  · simp at h
  · next hitems =>
    simp only [Option.some.injEq, Prod.mk.injEq] at h
    obtain ⟨⟨rfl, rfl⟩, rfl⟩ := h
    exact ⟨hitems, rfl, rfl, rfl⟩

end DropOldestQueue

abbrev SubscriberId := ℕ

/-- An event on a subscriber's socket: its `StreamSeq`, and where it stood among the events offered. -/
structure Delivered where
  seq : ℕ
  event : Event
  position : ℕ
  deriving DecidableEq

/-- A subscriber's queue, its writer's counter, and what was written to its socket. -/
structure Subscriber where
  queue : DropOldestQueue (Event × ℕ)
  seq : ℕ
  written : List Delivered

namespace Subscriber

def new (capacity : ℕ) : Subscriber := ⟨.new capacity, 0, []⟩

def push (sub : Subscriber) (item : Event × ℕ) : Subscriber := { sub with queue := sub.queue.push item }

/-- One turn of `run_subscriber_writer`, with a write that succeeds. -/
def write (sub : Subscriber) : Option Subscriber := do
  let (((event, position), dropped), queue) ← sub.queue.popBlocking
  let seq := (sub.seq + (1 + dropped) % 2 ^ 64) % 2 ^ 64
  pure ⟨queue, seq, sub.written ++ [⟨seq, event, position⟩]⟩

end Subscriber

/-- The bounds of the channel and of every subscriber's queue. -/
structure Capacities where
  channel : ℕ
  queue : ℕ
  channel_pos : 1 ≤ channel
  queue_pos : 1 ≤ queue

/-- `MARKET_DATA_CHANNEL_CAPACITY`, `SUBSCRIBER_QUEUE_CAPACITY`. -/
def Capacities.default : Capacities := ⟨1024, 1024, by decide, by decide⟩

/-- The channel and the connected subscribers; `emitted` is what the engine has emitted so far. -/
structure Feed where
  emitted : List Event
  channel : List (Event × ℕ)
  subscribers : SubscriberId → Option Subscriber
  nextId : SubscriberId

/-- The steps of the threads. -/
inductive FeedAct
  /-- The matching thread emits an event: `try_send`. -/
  | offer (event : Event)
  /-- The fan-out thread takes an event off the channel. -/
  | fanOut
  /-- A subscriber connects. -/
  | accept
  /-- A subscriber's writer pops an event; the write to its socket may fail. -/
  | write (id : SubscriberId) (ok : Bool)
  deriving DecidableEq

/-- The event a step emits. -/
def FeedAct.offered : FeedAct → Option Event
  | .offer event => some event
  | _ => none

/-- The thread has to wait. -/
inductive Blocked
  | waiting
  deriving DecidableEq

namespace Feed

def start : Feed := ⟨[], [], fun _ => none, 1⟩

def step (k : Capacities) (f : Feed) : FeedAct → Except Blocked (Feed × Unit)
  | .offer event =>
    let item := (event, f.emitted.length)
    let f := { f with emitted := f.emitted ++ [event] }
    -- a full channel turns the event away, and nobody looks at the result
    if f.channel.length < k.channel then .ok ({ f with channel := f.channel ++ [item] }, ())
    else .ok (f, ())
  | .fanOut =>
    match f.channel with
    | [] => .error .waiting
    | item :: channel =>
      .ok ({ f with channel := channel, subscribers := fun id => (f.subscribers id).map (fun sub => sub.push item) }, ())
  | .accept =>
    .ok ({ f with subscribers := Function.update f.subscribers f.nextId (some (.new k.queue)), nextId := f.nextId + 1 },
      ())
  | .write id ok =>
    match (f.subscribers id).bind Subscriber.write with
    | none => .error .waiting
    | some sub =>
      .ok ({ f with subscribers := Function.update f.subscribers id (if ok then some sub else none) }, ())

variable {k : Capacities} {f f' : Feed} {act : FeedAct} {u : Unit}

/-- An offer is always taken; the channel has the event if there was room. -/
theorem step_offer (k : Capacities) (f : Feed) (event : Event) :
    ∃ f', f.step k (.offer event) = .ok (f', ()) ∧ f'.emitted = f.emitted ++ [event] ∧ f'.subscribers = f.subscribers ∧
      f'.channel = if f.channel.length < k.channel then f.channel ++ [(event, f.emitted.length)] else f.channel := by
  simp only [step]
  split
  · exact ⟨_, rfl, rfl, rfl, rfl⟩
  · exact ⟨_, rfl, rfl, rfl, rfl⟩

/-- **What one step does.** -/
theorem step_cases (h : f.step k act = .ok (f', u)) :
    (∃ event, act = .offer event ∧ f'.emitted = f.emitted ++ [event] ∧ f'.subscribers = f.subscribers ∧
      f'.channel = if f.channel.length < k.channel then f.channel ++ [(event, f.emitted.length)] else f.channel) ∨
    (∃ item, act = .fanOut ∧ f'.emitted = f.emitted ∧ f.channel = item :: f'.channel ∧
      f'.subscribers = fun id => (f.subscribers id).map (fun sub => sub.push item)) ∨
    (act = .accept ∧ f'.emitted = f.emitted ∧ f'.channel = f.channel ∧
      f'.subscribers = Function.update f.subscribers f.nextId (some (.new k.queue))) ∨
    (∃ id ok sub sub', act = .write id ok ∧ f'.emitted = f.emitted ∧ f'.channel = f.channel ∧
      f.subscribers id = some sub ∧ sub.write = some sub' ∧
      f'.subscribers = Function.update f.subscribers id (if ok then some sub' else none)) := by
  cases act with
  | offer event =>
    left
    obtain ⟨f₁, hf₁, hspec⟩ := step_offer k f event
    rw [hf₁, Except.ok.injEq, Prod.mk.injEq] at h
    exact ⟨event, rfl, h.1 ▸ hspec⟩
  | fanOut =>
    right; left
    simp only [step] at h
    split at h
    · cases h
    · next item channel hch =>
      cases h
      exact ⟨item, rfl, rfl, hch, rfl⟩
  | accept =>
    right; right; left
    cases h
    exact ⟨rfl, rfl, rfl, rfl⟩
  | write id ok =>
    right; right; right
    simp only [step] at h
    split at h
    · cases h
    · next sub' hw =>
      cases h
      obtain ⟨sub, hsub, hw⟩ := Option.bind_eq_some_iff.1 hw
      exact ⟨id, ok, sub, sub', rfl, rfl, rfl, hsub, hw, rfl⟩

end Feed

end MatchingEngine
