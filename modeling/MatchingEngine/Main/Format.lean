import MatchingEngine.Wire.Inbound
import MatchingEngine.Wire.RoundTrip

/-!
# The wire format, exactly

* `inbound_format_exact`: a frame is accepted as a command exactly if it is what the encoder
  writes for it and the command is valid.
* `outbound_round_trips`: stamped events are read back, and a stream of them is split back.
* `framing_chunk_independent`: how a stream is cut into reads does not show.
-/

namespace MatchingEngine

namespace Command

/-- Every field is a `u64`, as the type of the source says. -/
def Typed : Command → Prop
  | .newOrder a o _ p q _ _ ts => a < 2 ^ 64 ∧ o < 2 ^ 64 ∧ p < 2 ^ 64 ∧ q < 2 ^ 64 ∧ ts < 2 ^ 64
  | .cancelOrder a o => a < 2 ^ 64 ∧ o < 2 ^ 64
  | .cancelReplace a o p q => a < 2 ^ 64 ∧ o < 2 ^ 64 ∧ p < 2 ^ 64 ∧ q < 2 ^ 64
  | .massCancel a => a < 2 ^ 64
  | .killSwitch _ => True
  | .snapshot => True

/-- What the gateway asks of a command: a quantity, and a price unless it is a market order. -/
def Valid : Command → Prop
  | .newOrder _ _ _ p q k _ _ => q ≠ 0 ∧ (k = .market ∨ p ≠ 0)
  | .cancelReplace _ _ _ q => q ≠ 0
  | _ => True

theorem decodable_iff (c : Command) : c.Decodable ↔ c.Typed ∧ c.Valid := by
  cases c with
  | newOrder a o s p q k t ts =>
    cases k with
    | limit => simp only [Decodable, Typed, Valid, forall_const, reduceCtorEq, false_or, and_assoc]
    | market => simp [Decodable, Typed, Valid, and_assoc]
  | cancelReplace a o p q => simp only [Decodable, Typed, Valid, and_assoc]
  | cancelOrder a o => exact (and_iff_left trivial).symm
  | massCancel a => exact (and_iff_left trivial).symm
  | killSwitch e => exact (and_iff_left trivial).symm
  | snapshot => exact (and_iff_left trivial).symm

end Command

/-- **The inbound format is exact**: `decode_command` accepts `f` as `c` if and only if `c` is valid and `f`
is what `encode_command` writes for it, whatever the buffer held; and it writes as many bytes as the tag
it writes says. -/
theorem inbound_format_exact (f : List UInt8) (c : Command) :
    ((decodeCommand f).run = .ok (.ok c) ↔ c.Typed ∧ c.Valid ∧ Encodes (encodeCommand c) f) ∧
    ∃ bytes tag, Encodes (encodeCommand c) bytes ∧ bytes.head? = some tag ∧ messageLen tag = some bytes.length := by
  refine ⟨?_, ?_⟩
  · rw [decodeCommand_ok, Command.decodable_iff, and_assoc]
    refine and_congr_right fun _ => and_congr_right fun _ => ?_
    constructor
    · rintro rfl
      exact encodeCommand_encodes c
    · intro h
      exact h.unique (encodeCommand_encodes c)
  · obtain ⟨tag, -, hhead, hlen⟩ := commandBytes_tag c
    exact ⟨commandBytes c, tag, encodeCommand_encodes c, hhead, hlen⟩

/-- **The outbound format round-trips and is unambiguous**: every stamped event is read back from what is
written for it, and the framer splits any such messages, one behind the other, back into them. -/
theorem outbound_round_trips {stamped : List (ℕ × ℕ × Event)}
    (h : ∀ x ∈ stamped, x.1 < 2 ^ 64 ∧ x.2.1 < 2 ^ 64 ∧ x.2.2.Typed) :
    ∃ encodings, List.Forall₂ (fun x bytes => x.2.2.RoundTrips x.1 x.2.1 bytes) stamped encodings ∧
      (Framer.new.feed encodings.flatten).drainFrames Framer.collect [] = .ok (⟨[]⟩, encodings, .ok ()) := by
  have hall : ∃ encodings, List.Forall₂ (fun x bytes => x.2.2.RoundTrips x.1 x.2.1 bytes) stamped encodings ∧
      ∀ bytes ∈ encodings, IsFrame messageLen bytes := by
    induction stamped with
    | nil => exact ⟨[], .nil, fun _ hb => absurd hb List.not_mem_nil⟩
    | cons x stamped ih =>
      obtain ⟨hs, he, hev⟩ := h x List.mem_cons_self
      obtain ⟨bytes, hb⟩ := Event.roundTrips hs he hev
      obtain ⟨encodings, hrest, hwhole⟩ := ih (fun y hy => h y (List.mem_cons_of_mem _ hy))
      exact ⟨bytes :: encodings, .cons hb hrest, List.forall_mem_cons.2 ⟨hb.2.1, hwhole⟩⟩
  obtain ⟨encodings, henc, hwhole⟩ := hall
  exact ⟨encodings, henc, Framer.drainFrames_whole hwhole⟩

/-- An absent bid, a reject and a notional that needs all sixteen bytes. -/
theorem outbound_round_trips_mixed :
    ∃ encodings, List.Forall₂ (fun (x : ℕ × ℕ × Event) bytes => x.2.2.RoundTrips x.1 x.2.1 bytes)
        [(1, 7, .bookUpdate none (some (100, 5))), (2, 8, .rejected 1 9 .wouldCross),
          (3, 9, .snapshotAccount 1 2 (2 ^ 128 - 1))] encodings ∧
      (Framer.new.feed encodings.flatten).drainFrames Framer.collect [] = .ok (⟨[]⟩, encodings, .ok ()) := by
  refine outbound_round_trips ?_
  simp [Event.Typed, Event.TouchTyped]

/-- What is written for commands in sequence. -/
theorem encodings_eq {cmds : List Command} {encodings : List (List UInt8)}
    (h : List.Forall₂ (fun c bytes => Encodes (encodeCommand c) bytes) cmds encodings) :
    encodings = cmds.map commandBytes := by
  induction h with
  | nil => rfl
  | cons hb _ ih => rw [List.map_cons, ← ih, hb.unique (encodeCommand_encodes _)]

/-- **Framing does not depend on the reads**: any chunks hand over the frames of their concatenation, and
end as it does. What is left behind is the beginning of a frame, or starts at the first unknown tag. So the
encodings of valid commands, cut anywhere, decode to these commands in order. -/
theorem framing_chunk_independent (chunks : List (List UInt8)) :
    (∃ kept pending frames result,
      Framer.new.feedChunks Framer.collect [] chunks = .ok (kept, frames, result) ∧
      (Framer.new.feed chunks.flatten).drainFrames Framer.collect [] = .ok (⟨pending⟩, frames, result) ∧
      (∀ f ∈ frames, IsFrame messageLen f) ∧ frames.flatten ++ pending = chunks.flatten ∧
      match result with
      | .ok () => kept = ⟨pending⟩ ∧ ∃ f, IsFrame messageLen f ∧ pending <+: f ∧ pending ≠ f
      | .error reason => reason = .unknownMessageType ∧ Unknown messageLen pending) ∧
    ∀ cmds encodings, (∀ c ∈ cmds, c.Typed ∧ c.Valid) →
      List.Forall₂ (fun c bytes => Encodes (encodeCommand c) bytes) cmds encodings →
      chunks.flatten = encodings.flatten →
      Framer.new.feedChunks Framer.collect [] chunks = .ok (⟨[]⟩, encodings, .ok ()) ∧
      Decodes encodings (cmds.map .ok) := by
  obtain ⟨frames, pending, result, kept, hcut, hends, hkept, hrun⟩ :=
    Framer.feedChunks_eq Framer.collect .new unfinished_nil chunks
  have hchunks : Framer.new.feedChunks Framer.collect [] chunks = .ok (kept, frames, result) := by
    rw [hrun, Framer.foldlM_collect]
    rfl
  -- a stream has one cut, so both readers found the same
  refine ⟨⟨kept, pending, frames, result, hchunks, ?_, hcut.whole, hcut.eq, ?_⟩, ?_⟩
  · obtain ⟨frames', pending', result', hcut', hends', hdrain⟩ :=
      (Framer.new.feed chunks.flatten).drainFrames_collect []
    obtain ⟨rfl, rfl⟩ := hcut.unique hcut'
    rw [hdrain, hends.unique hends']
    rfl
  · cases result with
    | ok u => exact ⟨hkept rfl, Unfinished.exists_frame hends (isFrame_commandBytes .snapshot)⟩
    | error reason => exact hends
  · intro cmds encodings hcmds henc heq
    have hdec := decodes_commandBytes (fun c hc => (Command.decodable_iff c).2 (hcmds c hc))
    rw [← encodings_eq henc] at hdec
    have hwhole : ∀ f ∈ encodings, IsFrame messageLen f := by
      rw [encodings_eq henc, List.forall_mem_map]
      exact fun c _ => isFrame_commandBytes c
    have hcut' : Cut messageLen (Framer.new.buf ++ chunks.flatten) encodings [] :=
      ⟨hwhole, .inl unfinished_nil, by rw [List.append_nil, heq]; rfl⟩
    obtain ⟨rfl, rfl⟩ := hcut.unique hcut'
    have hok : result = .ok () := @Framer.Ends.unique _ _ (.ok ()) hends unfinished_nil
    rw [hchunks, hok, hkept hok]
    exact ⟨rfl, hdec⟩

end MatchingEngine
