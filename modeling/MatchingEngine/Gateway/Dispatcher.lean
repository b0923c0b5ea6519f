import MatchingEngine.Gateway.Reader
import MatchingEngine.Wire.RoundTrip
import MatchingEngine.Lib.Run
import Mathlib.Data.Finmap

/-!
# The return dispatcher

`gateway::order_entry`: the one thread that writes to the clients. The accept loop hands it the
write half of every connection; it takes one item after the other off the return channel, counts it
in its connection's own `StreamSeq`, and writes it out. A write that fails drops the write half and
the counter. An item for a connection without a write half finds no counter either, makes one, and
drops it again.

Whether a write succeeds is up to the client, so a step comes with the answer. So is when: `write_all`
waits for a client that does not read, with the map of write halves locked, and a step is what is done
once it has returned.

* `Dispatcher.step_cases`: what one step does.
* `Dispatcher.run_total`: no item stops the dispatcher.
-/

namespace MatchingEngine

/-- What was written to a connection: the stamp, the item and the bytes. -/
@[ext]
structure Report where
  connId : ConnId
  seq : ℕ
  engineSeq : ℕ
  event : Event
  bytes : List UInt8
  deriving DecidableEq

/-- The write halves held, and the counters. -/
structure Dispatcher where
  writers : Finset ConnId
  seqs : Finmap (fun _ : ConnId => ℕ)

inductive DispatchAct
  /-- The accept loop hands over a write half. -/
  | register (connId : ConnId)
  /-- An item comes off the return channel; a write to its socket succeeds or not. -/
  | item (connId : ConnId) (engineSeq : ℕ) (event : Event) (ok : Bool)
  deriving DecidableEq

/-- The connection a step is about. -/
def DispatchAct.conn : DispatchAct → ConnId
  | .register connId => connId
  | .item connId .. => connId

namespace Dispatcher

def start : Dispatcher := ⟨∅, ∅⟩

/-- One registration, or one turn of `run_return_dispatcher`. -/
def step (P : Profile) (d : Dispatcher) : DispatchAct → Except Panic (Dispatcher × Option Report)
  | .register connId => .ok ({ d with writers := insert connId d.writers }, none)
  | .item connId engineSeq event ok => do
    let seq ← P.store64 (((d.seqs.lookup connId).getD 0 : ℤ) + 1)
    let seqs := d.seqs.insert connId seq
    let (buf, len) ← encodeEvent seq (some engineSeq) event (List.replicate maxMessageLen 0)
    let wroteOk := connId ∈ d.writers ∧ ok
    if wroteOk then pure (⟨d.writers, seqs⟩, some ⟨connId, seq, engineSeq, event, buf.take len⟩)
    else pure (⟨d.writers.erase connId, seqs.erase connId⟩, none)

variable {P : Profile} {d d' : Dispatcher} {act : DispatchAct} {out : Option Report}

/-- **What one step does.** -/
theorem step_cases (h : d.step P act = .ok (d', out)) :
    (∃ c, act = .register c ∧ d' = ⟨insert c d.writers, d.seqs⟩ ∧ out = none) ∨
    (∃ c engineSeq event seq bytes, act = .item c engineSeq event true ∧ c ∈ d.writers ∧
      P.u64.val (((d.seqs.lookup c).getD 0 : ℤ) + 1) = some seq ∧
      Encodes (encodeEvent seq (some engineSeq) event) bytes ∧
      d' = ⟨d.writers, d.seqs.insert c seq⟩ ∧ out = some ⟨c, seq, engineSeq, event, bytes⟩) ∨
    (∃ c engineSeq event ok seq, act = .item c engineSeq event ok ∧ ¬ (c ∈ d.writers ∧ ok) ∧
      d' = ⟨d.writers.erase c, (d.seqs.insert c seq).erase c⟩ ∧ out = none) := by
  cases act with
  | register c =>
    left
    cases h
    exact ⟨c, rfl, rfl, rfl⟩
  | item c engineSeq event ok =>
    right
    obtain ⟨seq, hseq, h⟩ := exists_of_bind_ok h
    obtain ⟨bytes, henc⟩ := Event.encodes seq engineSeq event
    obtain ⟨buf, hbuf, htake⟩ := henc (List.replicate maxMessageLen 0) (by simp)
    rw [hbuf] at h
    dsimp only [bind, Except.bind] at h
    rw [htake] at h
    by_cases hok : c ∈ d.writers ∧ ok
    · left
      rw [if_pos hok] at h
      obtain ⟨rfl, rfl⟩ := Prod.mk.inj (Except.ok.inj h)
      obtain ⟨hc, rfl⟩ := hok
      exact ⟨c, engineSeq, event, seq, bytes, rfl, hc, Profile.store64_inv hseq, henc, rfl, rfl⟩
    · right
      rw [if_neg hok] at h
      obtain ⟨rfl, rfl⟩ := Prod.mk.inj (Except.ok.inj h)
      exact ⟨c, engineSeq, event, ok, seq, rfl, hok, rfl, rfl⟩

/-- **No item stops the dispatcher**, if counting does not. -/
theorem run_total (hP : P.Total) (acts : List DispatchAct) : ∃ d outs, run (step P) start acts = .ok (d, outs) := by
  have hstep : ∀ d act, True → True → ∃ d' out, step P d act = .ok (d', out) ∧ True := by
    intro d act _ _
    cases act with
    | register c => exact ⟨_, _, rfl, trivial⟩
    | item c engineSeq event ok =>
      obtain ⟨seq, hseq⟩ := Option.isSome_iff_exists.1 (hP.u64 (((d.seqs.lookup c).getD 0 : ℤ) + 1) (by omega))
      obtain ⟨bytes, henc⟩ := Event.encodes seq engineSeq event
      obtain ⟨buf, hbuf, -⟩ := henc (List.replicate maxMessageLen 0) (by simp)
      unfold step
      simp only [Profile.store64_ok hseq, hbuf, bind, Except.bind]
      split
      · exact ⟨_, _, rfl, trivial⟩
      · exact ⟨_, _, rfl, trivial⟩
  have halong : Along (step P) (fun _ _ => True) start acts := along_of_forall (Q := fun _ => True) fun _ _ => trivial
  obtain ⟨d, outs, hrun, -⟩ := run_ok (fun _ => True) hstep trivial halong
  exact ⟨d, outs, hrun⟩

end Dispatcher

end MatchingEngine
