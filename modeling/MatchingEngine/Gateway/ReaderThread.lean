import MatchingEngine.Gateway.Reader
import MatchingEngine.Marketdata.Feed

/-!
# The connection reader, one send at a time

`gateway::order_entry` again, at the grain at which a reader shares its two channels with other
threads: a step is one `read`, or one turn of the loop of `drain_frames`, which hands over at
most one command or reject. Between two turns any other thread may run.

A frame with an outbound tag makes `decode_command` panic; that ends this thread and no other.

* `Answered`: what was handed over answers the whole frames at the front of the stream.
* `ReaderThread.run_reads`: a reader at any moment of any run.
* `ReaderThread.runReader_eq_run`: between reads, it has handed over what `run_reader` does.
-/

namespace MatchingEngine

/-- What a turn of the loop of `drain_frames` finds. -/
inductive Found
  /-- Nothing, or the beginning of a frame. -/
  | waits
  /-- A tag without a length. -/
  | unknown
  | frame (bytes : List UInt8)

/-- The turn `consumed` bytes into the buffer. -/
def Framer.next (fr : Framer) (consumed : ℕ) : Found :=
  let remaining := fr.buf.drop consumed
  match remaining.head? with
  | none => .waits
  | some tag =>
    match messageLen tag with
    | none => .unknown
    | some len => if remaining.length < len then .waits else .frame (remaining.take len)

/-- What the turn may find in front of it. -/
def Found.Fits (fr : Framer) (consumed : ℕ) : Found → Prop
  | .waits => Unfinished messageLen (fr.buf.drop consumed)
  | .unknown => Unknown messageLen (fr.buf.drop consumed)
  | .frame bytes => IsFrame messageLen bytes ∧ bytes ++ fr.buf.drop (consumed + bytes.length) = fr.buf.drop consumed

theorem Framer.next_fits (fr : Framer) (consumed : ℕ) : (fr.next consumed).Fits fr consumed := by
  unfold Framer.next
  cases hhead : (fr.buf.drop consumed).head? with
  | none =>
    simp only [hhead]
    intro tag htag
    rw [hhead] at htag
    cases htag
  | some tag =>
    cases hlen : messageLen tag with
    | none =>
      simp only [hhead, hlen]
      exact ⟨tag, hhead, hlen⟩
    | some len =>
      simp only [hhead, hlen]
      by_cases hlt : (fr.buf.drop consumed).length < len
      · rw [if_pos hlt]
        intro tag' htag'
        rw [hhead] at htag'
        exact ⟨len, Option.some.inj htag' ▸ hlen, hlt⟩
      · rw [if_neg hlt]
        have htake : ((fr.buf.drop consumed).take len).length = len := by
          rw [List.length_take]
          omega
        refine ⟨isFrame_take hhead hlen (by omega), ?_⟩
        rw [htake, ← List.drop_drop, List.take_append_drop]

/-- Where a reader is. -/
inductive ReaderThread
  /-- In `read`. -/
  | reading (framer : Framer)
  /-- In `drain_frames`, with `consumed` bytes of the buffer done. -/
  | draining (framer : Framer) (consumed : ℕ)
  /-- The thread is gone. -/
  | ended

inductive ReadAct
  /-- A read returns; nothing, or an error, closes the connection. -/
  | read (chunk : List UInt8)
  /-- A turn of the loop of `drain_frames`. -/
  | turn
  deriving DecidableEq

/-- The bytes a step reads. -/
def ReadAct.bytes : ReadAct → List UInt8
  | .read chunk => chunk
  | .turn => []

/-- The read a step is. -/
def ReadAct.chunk : ReadAct → Option (List UInt8)
  | .read chunk => some chunk
  | .turn => none

/-- `rs` answers the whole frames at the front of the stream, and `rest` comes after them. -/
def Answered (bytes : List UInt8) (rs : List (Except RejectReason Command)) (rest : List UInt8) : Prop :=
  ∃ fs, (∀ f ∈ fs, IsFrame messageLen f) ∧ Decodes fs rs ∧ fs.flatten ++ rest = bytes

namespace Answered

variable {bytes rest frame : List UInt8} {rs : List (Except RejectReason Command)} {r : Except RejectReason Command}

theorem nil (bytes : List UInt8) : Answered bytes [] bytes := ⟨[], by simp, .nil, rfl⟩

theorem read (h : Answered bytes rs rest) (chunk : List UInt8) : Answered (bytes ++ chunk) rs (rest ++ chunk) := by
  obtain ⟨fs, hfs, hrs, rfl⟩ := h
  exact ⟨fs, hfs, hrs, by rw [List.append_assoc]⟩

theorem snoc (h : Answered bytes rs (frame ++ rest)) (hf : IsFrame messageLen frame)
    (hr : (decodeCommand frame).run = .ok r) : Answered bytes (rs ++ [r]) rest := by
  obtain ⟨fs, hfs, hrs, rfl⟩ := h
  refine ⟨fs ++ [frame], fun f hmem => ?_, List.rel_append hrs (.cons hr .nil), ?_⟩
  · rcases List.mem_append.1 hmem with hmem | hmem
    · exact hfs f hmem
    · exact List.mem_singleton.1 hmem ▸ hf
  · rw [List.flatten_append, List.flatten_singleton, List.append_assoc]

/-- What was decoded and accepted can be. -/
theorem decodable (h : Answered bytes rs rest) {cmd : Command} (hcmd : .ok cmd ∈ rs) : cmd.Decodable := by
  obtain ⟨fs, -, hrs, -⟩ := h
  induction hrs with
  | nil => cases hcmd
  | cons hr _ ih =>
    rcases List.mem_cons.1 hcmd with rfl | hmem
    · exact decodeCommand_decodable hr
    · exact ih hmem

end Answered

namespace ReaderThread

def new : ReaderThread := .reading .new

/-- One step; what it puts out goes to the matching thread or, if it is a reject, back to the client. -/
def step : ReaderThread → ReadAct → Except Blocked (ReaderThread × Option (Except RejectReason Command))
  | .reading framer, .read chunk =>
    if chunk = [] then .ok (.ended, none) else .ok (.draining (framer.feed chunk) 0, none)
  | .draining framer consumed, .turn =>
    match framer.next consumed with
    | .waits => .ok (.reading ⟨framer.buf.drop consumed⟩, none)
    -- framing is lost: one more reject, and the connection is not read again
    | .unknown => .ok (.ended, some (.error .unknownMessageType))
    | .frame bytes =>
      match (decodeCommand bytes).run with
      -- the panic unwinds this thread
      | .error _ => .ok (.ended, none)
      | .ok r => .ok (.draining framer (consumed + bytes.length), some r)
  | _, _ => .error .waiting

variable {st st' : ReaderThread} {act : ReadAct} {acts : List ReadAct} {o : Option (Except RejectReason Command)}
  {outs : List (Option (Except RejectReason Command))} {bytes : List UInt8} {rs : List (Except RejectReason Command)}

/-- **What one step does.** -/
theorem step_cases (h : st.step act = .ok (st', o)) :
    (∃ framer, st = .reading framer ∧ act = .read [] ∧ st' = .ended ∧ o = none) ∨
    (∃ framer chunk, st = .reading framer ∧ act = .read chunk ∧ chunk ≠ [] ∧
      st' = .draining (framer.feed chunk) 0 ∧ o = none) ∨
    (∃ framer n, st = .draining framer n ∧ act = .turn ∧ Unfinished messageLen (framer.buf.drop n) ∧
      st' = .reading ⟨framer.buf.drop n⟩ ∧ o = none) ∨
    (∃ framer n, st = .draining framer n ∧ act = .turn ∧ Unknown messageLen (framer.buf.drop n) ∧ st' = .ended ∧
      o = some (.error .unknownMessageType)) ∨
    (∃ framer n frame, st = .draining framer n ∧ act = .turn ∧ IsFrame messageLen frame ∧
      frame ++ framer.buf.drop (n + frame.length) = framer.buf.drop n ∧
      ((Tagged outboundTags frame ∧ st' = .ended ∧ o = none) ∨
        ∃ r, (decodeCommand frame).run = .ok r ∧ st' = .draining framer (n + frame.length) ∧ o = some r)) := by
  cases st with
  | ended => cases h
  | reading framer =>
    cases act with
    | turn => cases h
    | read chunk =>
      simp only [step] at h
      split at h
      · next hnil =>
        cases h
        exact Or.inl ⟨framer, rfl, by rw [hnil], rfl, rfl⟩
      · next hne =>
        cases h
        exact Or.inr (Or.inl ⟨framer, chunk, rfl, rfl, hne, rfl, rfl⟩)
  | draining framer n =>
    cases act with
    | read chunk => cases h
    | turn =>
      right; right
      have hspec := framer.next_fits n
      simp only [step] at h
      split at h
      · next hnext =>
        rw [hnext] at hspec
        cases h
        exact Or.inl ⟨framer, n, rfl, rfl, hspec, rfl, rfl⟩
      · next hnext =>
        rw [hnext] at hspec
        cases h
        exact Or.inr (Or.inl ⟨framer, n, rfl, rfl, hspec, rfl, rfl⟩)
      · next frame hnext =>
        rw [hnext] at hspec
        obtain ⟨hframe, hsplit⟩ := hspec
        refine Or.inr (Or.inr ⟨framer, n, frame, rfl, rfl, hframe, hsplit, ?_⟩)
        split at h
        · next hpanic =>
          cases h
          refine Or.inl ⟨?_, rfl, rfl⟩
          by_contra hin
          obtain ⟨r, hr⟩ := decodeCommand_ok_iff.2 hin
          rw [hr] at hpanic
          cases hpanic
        · next r hr =>
          cases h
          exact Or.inr ⟨r, hr, rfl, rfl⟩

/-- What a reader has handed over of the bytes it was sent. -/
inductive Reads : List UInt8 → ReaderThread → List (Except RejectReason Command) → Prop
  | reading {bytes rs framer} (answered : Answered bytes rs framer.buf) (stops : Unfinished messageLen framer.buf) :
    Reads bytes (.reading framer) rs
  | draining {bytes rs framer consumed} (answered : Answered bytes rs (framer.buf.drop consumed)) :
    Reads bytes (.draining framer consumed) rs
  /-- The client went away. -/
  | closed {bytes rs rest} (answered : Answered bytes rs rest) (stops : Unfinished messageLen rest) :
    Reads bytes .ended rs
  /-- The next frame is an outbound one. -/
  | panicked {bytes rs frame rest} (answered : Answered bytes rs (frame ++ rest)) (stops : Tagged outboundTags frame) :
    Reads bytes .ended rs
  /-- No frame begins there. -/
  | desynced {bytes rs rest} (answered : Answered bytes rs rest) (stops : Unknown messageLen rest) :
    Reads bytes .ended (rs ++ [.error .unknownMessageType])

theorem Reads.new : Reads [] .new [] := .reading (Answered.nil _) unfinished_nil

/-- **One step.** -/
theorem Reads.step (hreads : Reads bytes st rs) (h : st.step act = .ok (st', o)) :
    Reads (bytes ++ act.bytes) st' (rs ++ o.toList) := by
  rcases step_cases h with ⟨framer, rfl, rfl, rfl, rfl⟩ | ⟨framer, chunk, rfl, rfl, -, rfl, rfl⟩ |
    ⟨framer, n, rfl, rfl, hu, rfl, rfl⟩ | ⟨framer, n, rfl, rfl, hu, rfl, rfl⟩ |
    ⟨framer, n, frame, rfl, rfl, hframe, hsplit, hend⟩
  · obtain ⟨hans, hstops⟩ : Answered bytes rs framer.buf ∧ Unfinished messageLen framer.buf := by
      cases hreads with
      | reading hans hstops => exact ⟨hans, hstops⟩
    simpa [ReadAct.bytes] using Reads.closed hans hstops
  · obtain hans : Answered bytes rs framer.buf := by
      cases hreads with
      | reading hans hstops => exact hans
    have hread : Answered (bytes ++ chunk) rs ((framer.feed chunk).buf.drop 0) := hans.read chunk
    simpa [ReadAct.bytes, Framer.feed] using Reads.draining hread
  all_goals
    obtain hans : Answered bytes rs (framer.buf.drop n) := by
      cases hreads with
      | draining hans => exact hans
    rw [ReadAct.bytes, List.append_nil]
  · have hrest : Answered bytes rs (Framer.mk (framer.buf.drop n)).buf := hans
    simpa using Reads.reading hrest hu
  · exact .desynced hans hu
  · rw [← hsplit] at hans
    rcases hend with ⟨hout, rfl, rfl⟩ | ⟨r, hr, rfl, rfl⟩
    · simpa using Reads.panicked hans hout
    · exact .draining (hans.snoc hframe hr)

/-- **A reader at any moment**: what it has handed over answers the whole frames at the front of the bytes it
was sent. -/
theorem run_reads (h : run step .new acts = .ok (st, outs)) :
    Reads (acts.flatMap ReadAct.bytes) st (outs.filterMap id) := by
  have hgen : ∀ {st st' : ReaderThread} {bytes : List UInt8} {rs : List (Except RejectReason Command)}
      {outs : List (Option (Except RejectReason Command))}, Reads bytes st rs → run step st acts = .ok (st', outs) →
      Reads (bytes ++ acts.flatMap ReadAct.bytes) st' (rs ++ outs.filterMap id) := by
    clear h
    induction acts with
    | nil =>
      intro st st' bytes rs outs hreads h
      cases h
      simpa using hreads
    | cons act acts ih =>
      intro st st' bytes rs outs hreads h
      obtain ⟨st₁, o, outs', h1, h2, rfl⟩ := run_cons_inv h
      have hnext := ih (hreads.step h1) h2
      rw [List.append_assoc, List.append_assoc] at hnext
      rw [List.flatMap_cons]
      cases o with
      | none => exact hnext
      | some r => exact hnext
  exact hgen Reads.new h

/-! ### Against `run_reader` -/

theorem run_ended (h : run step .ended acts = .ok (st, outs)) : acts = [] ∧ st = .ended ∧ outs = [] := by
  cases acts with
  | nil =>
    cases h
    exact ⟨rfl, rfl, rfl⟩
  | cons act acts =>
    obtain ⟨st₁, o, outs', h1, -⟩ := run_cons_inv h
    cases h1

/-- The bytes read are those `run_reader` receives: no read follows the one that closes the connection. -/
theorem received_chunks (h : run step st acts = .ok (st', outs)) :
    Reader.received (acts.filterMap ReadAct.chunk) = acts.flatMap ReadAct.bytes := by
  induction acts generalizing st outs with
  | nil => rfl
  | cons act acts ih =>
    obtain ⟨st₁, o, outs', h1, h2, rfl⟩ := run_cons_inv h
    cases act with
    | turn => exact ih h2
    | read chunk =>
      rw [List.filterMap_cons_some (show ReadAct.chunk (.read chunk) = some chunk from rfl), List.flatMap_cons]
      unfold Reader.received
      by_cases hchunk : chunk = []
      · subst hchunk
        cases st with
        | reading framer =>
          cases h1
          obtain ⟨rfl, -, -⟩ := run_ended h2
          rfl
        | draining framer n => cases h1
        | ended => cases h1
      · rw [List.takeWhile_cons_of_pos (by simpa using hchunk), List.flatten_cons]
        exact congrArg (chunk ++ ·) (ih h2)

/-- Not inside `drain_frames`. -/
def Settled : ReaderThread → Prop
  | .draining _ _ => False
  | _ => True

instance : DecidablePred Settled
  | .reading _ => .isTrue trivial
  | .draining _ _ => .isFalse id
  | .ended => .isTrue trivial

/-- A reader that is not inside `drain_frames` has answered the whole stream, up to an outbound frame. -/
theorem Reads.whole (h : Reads bytes st rs) (hst : st.Settled)
    (hin : ¬ Carries messageLen (Tagged outboundTags) bytes) :
    ∃ fs rs' rest result, Cut messageLen bytes fs rest ∧ Framer.Ends rest result ∧ Decodes fs rs' ∧
      ∀ connId, rs.foldl (Reader.answer connId) ⟨[], []⟩ =
        Reader.close connId result (rs'.foldl (Reader.answer connId) ⟨[], []⟩) := by
  cases h with
  | reading answered stops =>
    obtain ⟨fs, hfs, hrs, heq⟩ := answered
    exact ⟨fs, rs, _, .ok (), ⟨hfs, .inl stops, heq⟩, stops, hrs, fun _ => rfl⟩
  | draining answered => exact hst.elim
  | closed answered stops =>
    obtain ⟨fs, hfs, hrs, heq⟩ := answered
    exact ⟨fs, rs, _, .ok (), ⟨hfs, .inl stops, heq⟩, stops, hrs, fun _ => rfl⟩
  | @panicked _ frame rest answered stops =>
    obtain ⟨fs, hfs, hrs, heq⟩ := answered
    obtain ⟨tag, htag, hhead, hlen⟩ := stops
    refine absurd ⟨fs, frame, rest, hfs, ⟨tag, hhead, hlen⟩, ⟨tag, htag, hhead, hlen⟩, ?_⟩ hin
    rw [← heq, List.append_assoc]
  | desynced answered stops =>
    obtain ⟨fs, hfs, hrs, heq⟩ := answered
    refine ⟨fs, _, _, .error .unknownMessageType, ⟨hfs, .inr stops, heq⟩, ⟨rfl, stops⟩, hrs, fun connId => ?_⟩
    rw [List.foldl_append]
    rfl

/-- **Between reads, a reader has put on its channels what `run_reader` puts on them**, whatever ran in
between, unless an outbound frame stopped it. -/
theorem runReader_eq_run (connId : ConnId) (h : run step .new acts = .ok (st, outs)) (hst : st.Settled)
    (hin : ¬ Carries messageLen (Tagged outboundTags) (acts.flatMap ReadAct.bytes)) :
    Reader.runReader connId .new ⟨[], []⟩ (acts.filterMap ReadAct.chunk) =
      .ok ((outs.filterMap id).foldl (Reader.answer connId) ⟨[], []⟩) := by
  obtain ⟨fs, rs, rest, result, hcut, hends, hdec, hsent⟩ := (run_reads h).whole hst hin
  obtain ⟨fs', rest', result', hcut', hends', hrun⟩ :=
    @Reader.runReader_ok connId (acts.filterMap ReadAct.chunk)
  rw [received_chunks h] at hcut'
  obtain ⟨rfl, rfl⟩ := hcut.unique hcut'
  rw [hrun]
  exact ⟨rs, hdec, by rw [hsent connId, hends.unique hends']⟩

end ReaderThread

end MatchingEngine
