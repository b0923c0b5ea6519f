import MatchingEngine.Wire.Codec

/-!
# The framer

`wire::framer`: a buffer that bytes are appended to and whole frames are taken from. A
callback sees each frame; it threads a state and may panic. The loop runs on fuel, one
more than the bytes it is given; `drainFrames_eq` says the fuel suffices and that a call
passes to the callback the frames of the buffer's `Cut`, in order, and keeps the rest.
`feedChunks_eq`: over several reads these are the frames of all the bytes read.
-/

namespace MatchingEngine

/-- `Framer`: the bytes not yet framed. -/
structure Framer where
  buf : List UInt8

namespace Framer

variable {σ : Type} (f : σ → List UInt8 → Except Panic σ)

/-- Nothing read yet. -/
def new : Framer := ⟨[]⟩

/-- `feed`: bytes that were read. -/
def feed (fr : Framer) (bytes : List UInt8) : Framer := ⟨fr.buf ++ bytes⟩

/-- The loop of `drain_frames` from `consumed` on: the bytes consumed, the callback's state, and the
result. -/
def drainLoop (buf : List UInt8) : ℕ → ℕ → σ → Except Panic (ℕ × σ × Except RejectReason Unit)
  | 0, _, _ => .error .diverges
  | fuel + 1, consumed, s =>
    let remaining := buf.drop consumed
    match remaining.head? with
    | none => pure (consumed, s, .ok ())
    | some tag =>
      match messageLen tag with
      | none => pure (consumed, s, .error .unknownMessageType)
      | some len =>
        -- a trailing partial frame waits for more bytes
        if remaining.length < len then pure (consumed, s, .ok ())
        else do
          let s ← f s (remaining.take len)
          drainLoop buf fuel (consumed + len) s

def drainFrames (fr : Framer) (s : σ) : Except Panic (Framer × σ × Except RejectReason Unit) := do
  let (consumed, s, result) ← drainLoop f fr.buf (fr.buf.length + 1) 0 s
  pure (⟨fr.buf.drop consumed⟩, s, result)

/-- Reads one after the other, each appended and drained, until one fails. -/
def feedChunks : Framer → σ → List (List UInt8) → Except Panic (Framer × σ × Except RejectReason Unit)
  | fr, s, [] => pure (fr, s, .ok ())
  | fr, s, chunk :: chunks => do
    let (fr, s, result) ← (fr.feed chunk).drainFrames f s
    match result with
    | .error reason => pure (fr, s, .error reason)
    | .ok () => feedChunks fr s chunks

/-- How a call that stopped at `rest` ends. -/
def Ends (rest : List UInt8) : Except RejectReason Unit → Prop
  | .ok () => Unfinished messageLen rest
  | .error reason => reason = .unknownMessageType ∧ Unknown messageLen rest

/-- What is left decides how the call ended. -/
theorem Ends.unique {rest : List UInt8} {r r' : Except RejectReason Unit} (h : Ends rest r) (h' : Ends rest r') :
    r = r' := by
  have hne : ∀ reason, ¬ (Ends rest (.ok ()) ∧ Ends rest (.error reason)) := by
    rintro reason ⟨hu, -, t, ht, hnone⟩
    obtain ⟨n, hn, -⟩ := hu t ht
    rw [hnone] at hn
    cases hn
  cases r with
  | ok u =>
    cases r' with
    | ok u' => rfl
    | error reason => exact absurd ⟨h, h'⟩ (hne reason)
  | error reason =>
    cases r' with
    | ok u' => exact absurd ⟨h', h⟩ (hne reason)
    | error reason' => rw [h.1, h'.1]

/-- A whole frame at the front of what remains. -/
theorem isFrame_take {remaining : List UInt8} {tag : UInt8} {len : ℕ} (hhead : remaining.head? = some tag)
    (hlen : messageLen tag = some len) (hle : len ≤ remaining.length) : IsFrame messageLen (remaining.take len) := by
  have hpos := messageLen_pos hlen
  refine ⟨tag, ?_, ?_⟩
  · rw [List.head?_take, if_neg (by omega), hhead]
  · rw [List.length_take, Nat.min_eq_left hle, hlen]

/-- **The loop is a fold over the frames that remain.** -/
theorem drainLoop_eq (buf : List UInt8) (fuel consumed : ℕ) (hfuel : (buf.drop consumed).length < fuel) :
    ∃ fs n result, Cut messageLen (buf.drop consumed) fs (buf.drop n) ∧ Ends (buf.drop n) result ∧
      ∀ s, drainLoop f buf fuel consumed s = fs.foldlM f s >>= fun s => pure (n, s, result) := by
  -- on the fuel: every whole frame takes at least its tag off what is left
  induction fuel generalizing consumed with
  | zero => omega
  | succ fuel ih =>
    cases hhead : (buf.drop consumed).head? with
    | none =>
      have hu : Unfinished messageLen (buf.drop consumed) := by
        intro tag htag
        rw [hhead] at htag
        cases htag
      refine ⟨[], consumed, .ok (), .nil (.inl hu), hu, fun s => ?_⟩
      simp only [drainLoop, hhead]
      rfl
    | some tag =>
      cases hlen : messageLen tag with
      | none =>
        have hu : Unknown messageLen (buf.drop consumed) := ⟨tag, hhead, hlen⟩
        refine ⟨[], consumed, .error .unknownMessageType, .nil (.inr hu), ⟨rfl, hu⟩, fun s => ?_⟩
        simp only [drainLoop, hhead, hlen]
        rfl
      | some len =>
        by_cases hlt : (buf.drop consumed).length < len
        · have hu : Unfinished messageLen (buf.drop consumed) := by
            intro tag' htag'
            rw [hhead] at htag'
            exact ⟨len, Option.some.inj htag' ▸ hlen, hlt⟩
          refine ⟨[], consumed, .ok (), .nil (.inl hu), hu, fun s => ?_⟩
          simp only [drainLoop, hhead, hlen, if_pos hlt]
          rfl
        · -- a whole frame: the rest of the loop starts after it, with less to do
          have hpos := messageLen_pos hlen
          have hle : len ≤ (buf.drop consumed).length := by omega
          rw [List.length_drop] at hfuel hle
          obtain ⟨fs, n, result, hcut, hends, hloop⟩ := ih (consumed + len) (by rw [List.length_drop]; omega)
          have hsplit : (buf.drop consumed).take len ++ buf.drop (consumed + len) = buf.drop consumed := by
            rw [← List.drop_drop, List.take_append_drop]
          have hframe := isFrame_take hhead hlen (by omega)
          refine ⟨(buf.drop consumed).take len :: fs, n, result, ?_, hends, fun s => ?_⟩
          · have hcons := hcut.cons hframe
            rwa [hsplit] at hcons
          · simp only [drainLoop, hhead, hlen, if_neg hlt, List.foldlM_cons, bind_assoc]
            congr 1
            funext s'
            exact hloop s'

/-- **One call of `drain_frames`**: every whole frame goes to the callback, the rest is kept. -/
theorem drainFrames_eq (fr : Framer) :
    ∃ fs rest result, Cut messageLen fr.buf fs rest ∧ Ends rest result ∧
      ∀ s, fr.drainFrames f s = fs.foldlM f s >>= fun s => pure (⟨rest⟩, s, result) := by
  obtain ⟨fs, n, result, hcut, hends, hloop⟩ := drainLoop_eq f fr.buf (fr.buf.length + 1) 0
    (by rw [List.drop_zero]; omega)
  rw [List.drop_zero] at hcut
  refine ⟨fs, fr.buf.drop n, result, hcut, hends, fun s => ?_⟩
  unfold drainFrames
  rw [hloop s, bind_assoc]
  rfl

/-- **Reads in sequence are a fold over the frames of all that was read**, for every chunking. -/
theorem feedChunks_eq (fr : Framer) (hf : Unfinished messageLen fr.buf) (chunks : List (List UInt8)) :
    ∃ fs rest result kept, Cut messageLen (fr.buf ++ chunks.flatten) fs rest ∧ Ends rest result ∧
      (result = .ok () → kept = ⟨rest⟩) ∧
      ∀ s, fr.feedChunks f s chunks = fs.foldlM f s >>= fun s => pure (kept, s, result) := by
  induction chunks generalizing fr with
  | nil =>
    refine ⟨[], fr.buf, .ok (), fr, ?_, hf, fun _ => rfl, fun s => rfl⟩
    rw [List.flatten_nil, List.append_nil]
    exact .nil (.inl hf)
  | cons chunk chunks ih =>
    obtain ⟨fs, rest, result, hcut, hends, hdrain⟩ := (fr.feed chunk).drainFrames_eq f
    have hbuf : fr.buf ++ (chunk :: chunks).flatten = (fr.feed chunk).buf ++ chunks.flatten := by
      rw [List.flatten_cons, ← List.append_assoc]
      rfl
    rw [hbuf]
    cases result with
    | error reason =>
      -- nothing after the unknown tag is framed
      refine ⟨fs, rest ++ chunks.flatten, .error reason, ⟨rest⟩, hcut.stuck hends.2 _,
        ⟨hends.1, hends.2.append _⟩, by simp, fun s => ?_⟩
      rw [feedChunks, hdrain s, bind_assoc]
      rfl
    | ok u =>
      obtain ⟨gs, rest', result', kept, hcut', hends', hkept, hloop⟩ := ih ⟨rest⟩ hends
      refine ⟨fs ++ gs, rest', result', kept, hcut.resume hcut', hends', hkept, fun s => ?_⟩
      rw [feedChunks, hdrain s, bind_assoc, List.foldlM_append, bind_assoc]
      congr 1
      funext s'
      exact hloop s'

/-- A callback that keeps the frames. -/
def collect (fs : List (List UInt8)) (frame : List UInt8) : Except Panic (List (List UInt8)) := .ok (fs ++ [frame])

/-- Collecting frames collects them all. -/
theorem foldlM_collect (fs acc : List (List UInt8)) : fs.foldlM collect acc = .ok (acc ++ fs) := by
  induction fs generalizing acc with
  | nil => rw [List.append_nil]; rfl
  | cons f fs ih =>
    have hstep : (f :: fs).foldlM collect acc = fs.foldlM collect (acc ++ [f]) := rfl
    rw [hstep, ih, List.append_assoc]
    rfl

/-- The frames one call hands over, kept. -/
theorem drainFrames_collect (fr : Framer) (acc : List (List UInt8)) :
    ∃ fs rest result, Cut messageLen fr.buf fs rest ∧ Ends rest result ∧
      fr.drainFrames collect acc = .ok (⟨rest⟩, acc ++ fs, result) := by
  obtain ⟨fs, rest, result, hcut, hends, hdrain⟩ := fr.drainFrames_eq collect
  refine ⟨fs, rest, result, hcut, hends, ?_⟩
  rw [hdrain, foldlM_collect]
  rfl

end Framer

end MatchingEngine
