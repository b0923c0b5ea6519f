import MatchingEngine.Wire.RoundTrip

/-!
# A client's end of a connection

The reader of `bench::harness`, and of any other client: the bytes of the socket go through the same
framer as the gateway's, and each frame through `decode_event`; a frame that is refused is skipped.

* `Message`: a frame and the stamped event it holds; `Event.message`: what the encoder writes is one.
* `feedChunks_messages`: a client that has read some of a stream of messages has read its first ones.
-/

namespace MatchingEngine

/-- An event as `decode_event` returns it: stamped, and numbered if it is a report. -/
abbrev Stamped := ℕ × Option ℕ × Event

namespace Client

variable {σ : Type}

/-- The callback on a frame: an event that was decoded is handled. -/
def onFrame (handle : σ → Stamped → σ) (s : σ) (frame : List UInt8) : Except Panic σ := do
  match ← (decodeEvent frame).run with
  | .ok x => pure (handle s x)
  | .error _ => pure s

/-- Keep what was decoded. -/
def keep (got : List Stamped) (x : Stamped) : List Stamped := got ++ [x]

end Client

/-- The frame holds the stamped event. -/
def Message (frame : List UInt8) (x : Stamped) : Prop :=
  IsFrame messageLen frame ∧ (decodeEvent frame).run = .ok (.ok x)

namespace Event

/-- The stamped event that comes out at the other end. -/
def stamped (ev : Event) (seq engineSeq : ℕ) : Stamped := (seq, if ev.isReport then some engineSeq else none, ev)

/-- **What the encoder writes is a message.** -/
theorem message {seq engineSeq : ℕ} {ev : Event} {bytes : List UInt8}
    (henc : Encodes (encodeEvent seq (some engineSeq) ev) bytes) (hseq : seq < 2 ^ 64) (heng : engineSeq < 2 ^ 64)
    (hev : ev.Typed) : Message bytes (ev.stamped seq engineSeq) := by
  obtain ⟨bytes', henc', hframe, hdecode⟩ := roundTrips hseq heng hev
  obtain rfl := henc.unique henc'
  exact ⟨hframe, hdecode⟩

/-- An event that is no report needs no number. -/
theorem encodeEvent_none {ev : Event} (h : ev.isReport = false) (seq engineSeq : ℕ) :
    encodeEvent seq none ev = encodeEvent seq (some engineSeq) ev := by
  cases ev with
  | accepted a o q => cases h
  | rejected a o reason => cases h
  | filled a o s p q v st => cases h
  | cancelled a o => cases h
  | replaced a o q kept => cases h
  | _ => rfl

end Event

namespace Client

variable {σ : Type} {fs : List (List UInt8)} {xs : List Stamped}

theorem foldlM_onFrame (handle : σ → Stamped → σ) (h : List.Forall₂ Message fs xs) (s : σ) :
    fs.foldlM (onFrame handle) s = .ok (xs.foldl handle s) := by
  induction h generalizing s with
  | nil => rfl
  | @cons f x fs xs hmsg _ ih =>
    have hone : onFrame handle s f = .ok (handle s x) := by
      unfold onFrame
      rw [hmsg.2]
      rfl
    rw [List.foldlM_cons, hone, List.foldl_cons]
    exact ih (handle s x)

theorem foldl_keep (xs got : List Stamped) : xs.foldl keep got = got ++ xs := by
  induction xs generalizing got with
  | nil => rw [List.foldl_nil, List.append_nil]
  | cons x xs ih =>
    rw [List.foldl_cons, ih]
    unfold keep
    rw [List.append_assoc, List.singleton_append]

/-- **A client that has read a beginning of a stream of messages**, in whatever chunks, has handled the messages
that are whole in it, in order; all of them if it has read it all. -/
theorem feedChunks_messages (handle : σ → Stamped → σ) (h : List.Forall₂ Message fs xs) {chunks : List (List UInt8)}
    (hread : chunks.flatten <+: fs.flatten) (s : σ) :
    ∃ m kept, Framer.new.feedChunks (onFrame handle) s chunks = .ok (kept, (xs.take m).foldl handle s, .ok ()) ∧
      (chunks.flatten = fs.flatten → xs.take m = xs ∧ kept = ⟨[]⟩) := by
  have hwhole : ∀ f ∈ fs, IsFrame messageLen f := by
    intro f hf
    obtain ⟨j, hj⟩ := List.mem_iff_getElem?.1 hf
    obtain ⟨hlt, rfl⟩ := List.getElem?_eq_some_iff.1 hj
    exact (h.get hlt (h.length_eq ▸ hlt)).1
  obtain ⟨m, rest, -, hcut, hu⟩ := Cut.of_prefix hwhole hread
  obtain ⟨fs', rest', result, kept, hcut', hends, hkept, hloop⟩ :=
    Framer.feedChunks_eq (onFrame handle) .new unfinished_nil chunks
  obtain ⟨rfl, rfl⟩ := hcut.unique hcut'
  obtain rfl : result = .ok () := @Framer.Ends.unique _ _ (.ok ()) hends hu
  refine ⟨m, kept, ?_, fun hall => ?_⟩
  · rw [hloop s, foldlM_onFrame handle (List.forall₂_take m h)]
    rfl
  · have hend : Cut messageLen chunks.flatten fs [] := ⟨hwhole, .inl unfinished_nil, by rw [List.append_nil, hall]⟩
    obtain ⟨htake, hrest⟩ := hcut.unique hend
    have hlen : fs.length ≤ m := List.take_eq_self_iff fs |>.1 htake
    rw [h.length_eq] at hlen
    exact ⟨List.take_of_length_le hlen, by rw [hkept rfl, hrest]⟩

end Client

end MatchingEngine
