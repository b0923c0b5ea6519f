import MatchingEngine.Main.AtRest
import MatchingEngine.Main.Representable
import MatchingEngine.Bench.Client

/-!
# From a client's bytes to a client's bytes

The release build, end to end: the clients' bytes become commands, the commands are processed in the
order taken, what they send back is routed, stamped, encoded and written, and each client's framer
and `decode_event` make of the bytes on its socket the stamped events again (`clients_read_reports`).
At every moment of every interleaving, a client has read the first of the events that the one order of
commands sends to it, and of the rejects of its own frames.

* `Linearized.typed`: what is on the return channel fits the wire.
* `Dispatcher.Numbered.messages`: what is written to a connection is one message for each item.
* `written_prefix`: these are the first of the items for it.
-/

namespace MatchingEngine

/-- What was written to the socket of a connection. -/
def bytesTo (c : ConnId) (os : List Obs) : List UInt8 :=
  (reportsTo c (os.flatMap Obs.fromDispatcher)).flatMap Report.bytes

/-- The items written to it. -/
def itemsWritten (c : ConnId) (os : List Obs) : List (ℕ × Event) :=
  ((itemsTo c (os.flatMap Obs.toDispatcher)).takeWhile Prod.snd).map Prod.fst

/-- Items stamped as the dispatcher counts, from one and modulo `2 ^ 64`. -/
def stampAll (items : List (ℕ × Event)) : List Stamped :=
  items.zipIdx.map (fun x => x.1.2.stamped ((x.2 + 1) % 2 ^ 64) x.1.1)

/-- **Each report written is a message** that holds its item, stamped. -/
theorem Dispatcher.Numbered.messages {items : List (ℕ × Event)} {reports : List Report}
    (h : Numbered .release 0 items reports) (hitems : ∀ x ∈ items, x.1 < 2 ^ 64 ∧ x.2.Typed) :
    List.Forall₂ Message (reports.map Report.bytes) (stampAll items) := by
  have hlen : reports.length = items.length := by rw [← h.items, List.length_map]
  unfold stampAll
  rw [List.forall₂_iff_get]
  refine ⟨by simp [hlen], fun j hj _ => ?_⟩
  rw [List.length_map] at hj
  have hstamp : Word.val (.wrapping 64) ((0 + j + 1 : ℕ) : ℤ) = some reports[j].seq :=
    h.stamps j _ (List.getElem?_eq_getElem hj)
  rw [Word.wrapping_val, Option.some.injEq, Nat.zero_add] at hstamp
  have hitem : items[j] = (reports[j].engineSeq, reports[j].event) := by
    have hget : (reports.map Report.item)[j]? = some reports[j].item := by
      rw [List.getElem?_map, List.getElem?_eq_getElem hj]
      rfl
    rw [h.items, List.getElem?_eq_getElem (hlen ▸ hj)] at hget
    exact Option.some.inj hget
  obtain ⟨heng, hev⟩ := hitems _ (List.getElem_mem (hlen ▸ hj))
  rw [hitem] at heng hev
  have hseq : reports[j].seq < 2 ^ 64 := hstamp ▸ Nat.mod_lt _ (Nat.two_pow_pos 64)
  have hmsg := Event.message (h.bytes _ (List.getElem_mem hj)) hseq heng hev
  rw [← hstamp] at hmsg
  simpa [hitem] using hmsg

namespace Daemon

variable {k : ChannelCapacities} {config : RiskConfig} {recorder : Option (List UInt8)} {d : Daemon k}
  {os : List Obs} {final : Matching} {outs : List Dispatched}

/-- What was put on the return channel fits the wire. -/
theorem Linearized.typed (h : Linearized .release config recorder d os final outs)
    (hfew : (takenCommands os).length < 2 ^ 64) : ∀ x ∈ d.returnedItems os, x.2.1 < 2 ^ 64 ∧ x.2.2.Typed := by
  rintro ⟨c, engineSeq, ev⟩ hx
  by_cases hzero : engineSeq = wireLevelRejectEngineSeq
  · -- a reader's reject
    obtain ⟨reason, hev⟩ := h.reject_of_zero hx hzero
    dsimp only at hev
    subst hzero hev
    exact ⟨Nat.two_pow_pos 64, Nat.two_pow_pos 64, Nat.two_pow_pos 64⟩
  · have hmem : (c, engineSeq, ev) ∈ MatchingThread.returned outs := by
      rw [h.returns]
      exact List.mem_append_left _ (List.mem_filter.2 ⟨hx, by simpa using hzero⟩)
    have hdec : ∀ x ∈ takenCommands os, x.2.Decodable := fun x hx => h.decodable x (List.mem_append_left _ hx)
    exact (Matching.run_typed hdec hfew h.run).1 _ hmem

/-- What was written to a connection is the first of what the one order of commands sends to it. -/
theorem Linearized.written_prefix (h : Linearized .release config recorder d os final outs) (c : ConnId) :
    (itemsWritten c os).filter (fun x => x.1 ≠ wireLevelRejectEngineSeq) <+:
      ((MatchingThread.returned outs).filter (fun x => x.1 = c)).map Prod.snd := by
  have hwritten : itemsWritten c os <+: ((os.flatMap Obs.dispatchedItem).filter (fun x => x.1 = c)).map Prod.snd := by
    rw [← itemsTo_items]
    exact (List.takeWhile_prefix _).map _
  have hnumbered : (os.flatMap Obs.dispatchedItem).filter (fun x => x.2.1 ≠ wireLevelRejectEngineSeq) <+:
      MatchingThread.returned outs := by
    rw [h.returns]
    unfold returnedItems
    rw [List.filter_append, List.append_assoc]
    exact List.prefix_append _ _
  have hswap : (((os.flatMap Obs.dispatchedItem).filter (fun x => x.1 = c)).map Prod.snd).filter
      (fun x => x.1 ≠ wireLevelRejectEngineSeq) = (((os.flatMap Obs.dispatchedItem).filter
        (fun x => x.2.1 ≠ wireLevelRejectEngineSeq)).filter (fun x => x.1 = c)).map Prod.snd := by
    rw [List.filter_map, List.filter_filter, List.filter_filter]
    exact congrArg _ (List.filter_congr fun x _ => Bool.and_comm _ _)
  calc (itemsWritten c os).filter (fun x => x.1 ≠ wireLevelRejectEngineSeq)
      <+: _ := hwritten.filter _
    _ <+: _ := by
      rw [hswap]
      exact (hnumbered.filter _).map _

end Daemon

/-- **What the clients read is what the commands send them.** In the release build, at any moment of any run of the
daemon's threads with fewer than `2 ^ 64` commands taken: the commands were processed one after the other, and what
was written to each connection is, the rejects of its own frames apart, the first of what they send to it; and a
client that has read any beginning of these bytes, in any chunks, has decoded the first of these items, stamped one,
two, three, and all of them if it has read all. -/
theorem clients_read_reports (k : ChannelCapacities) (config : RiskConfig) (recorder : Option (List UInt8))
    {acts : List DaemonAct} {d : Daemon k} {os : List Obs}
    (hrun : run (Daemon.step .release) (.start k config recorder) acts = .ok (d, os))
    (hfew : (takenCommands os).length < 2 ^ 64) :
    (∃ final outs, run (Matching.step .release) (.new config recorder) (takenCommands os) = .ok (final, outs) ∧
      ∀ c, (itemsWritten c os).filter (fun x => x.1 ≠ wireLevelRejectEngineSeq) <+:
        ((outs.flatMap Dispatched.returns).filter (fun x => x.1 = c)).map Prod.snd) ∧
    ∀ c chunks, chunks.flatten <+: bytesTo c os →
      ∃ m kept, Framer.new.feedChunks (Client.onFrame Client.keep) [] chunks =
          .ok (kept, (stampAll (itemsWritten c os)).take m, .ok ()) ∧
        (chunks.flatten = bytesTo c os → (stampAll (itemsWritten c os)).take m = stampAll (itemsWritten c os)) := by
  obtain ⟨final, outs, hlin⟩ := Daemon.linearized hrun
  refine ⟨⟨final, outs, hlin.run, hlin.written_prefix⟩, fun c chunks hread => ?_⟩
  have htyped : ∀ x ∈ itemsWritten c os, x.1 < 2 ^ 64 ∧ x.2.Typed := by
    intro x hx
    have hmem : x ∈ ((os.flatMap Obs.dispatchedItem).filter (fun x => x.1 = c)).map Prod.snd := by
      rw [← itemsTo_items]
      exact ((List.takeWhile_sublist _).map _).subset hx
    obtain ⟨y, hy, rfl⟩ := List.mem_map.1 hmem
    exact hlin.typed hfew y (List.mem_append_left _ (List.mem_of_mem_filter hy))
  have hmsgs := (Daemon.run_stream hrun c).messages htyped
  have hbytes : ((reportsTo c (os.flatMap Obs.fromDispatcher)).map Report.bytes).flatten = bytesTo c os :=
    List.flatMap_def.symm
  rw [← hbytes] at hread ⊢
  obtain ⟨m, kept, hgot, hall⟩ := Client.feedChunks_messages Client.keep hmsgs hread []
  rw [Client.foldl_keep, List.nil_append] at hgot
  exact ⟨m, kept, hgot, fun hwhole => (hall hwhole).1⟩

/-- Two clients whose orders trade, and what each reads. -/
theorem clients_read_reports_two_clients :
    ∃ d os, run (Daemon.step .release) (.start .default .default (some [])) twoClients = .ok (d, os) ∧
      (takenCommands os).length < 2 ^ 64 ∧
      (∃ final outs, run (Matching.step .release) (.new .default (some [])) (takenCommands os) = .ok (final, outs) ∧
        ∀ c, (itemsWritten c os).filter (fun x => x.1 ≠ wireLevelRejectEngineSeq) <+:
          ((outs.flatMap Dispatched.returns).filter (fun x => x.1 = c)).map Prod.snd) ∧
      ∀ c chunks, chunks.flatten <+: bytesTo c os →
        ∃ m kept, Framer.new.feedChunks (Client.onFrame Client.keep) [] chunks =
            .ok (kept, (stampAll (itemsWritten c os)).take m, .ok ()) ∧
          (chunks.flatten = bytesTo c os → (stampAll (itemsWritten c os)).take m = stampAll (itemsWritten c os)) := by
  obtain ⟨⟨d, os⟩, hrun, hfew⟩ := exists_ok_of_decide
    (x := run (Daemon.step .release) (.start .default .default (some [])) twoClients)
    (p := fun r => (takenCommands r.2).length < 2 ^ 64) (by decide +kernel)
  exact ⟨d, os, hrun, hfew, clients_read_reports .default .default (some []) hrun hfew⟩

end MatchingEngine
