import MatchingEngine.Main.Traffic
import MatchingEngine.Main.AtRest

/-!
# What the harness counts

The sender, the reader and the daemon in any order, over a burst of the workload. Every slot is entered under a
key and either measured, still pending, or overtaken: its entry was found by a later one under the same key. A
key is entered again only by the cancel of its order, and the pool offers it when the reader has shown the
order's acceptance to the workload, **before** the reader takes the key out of the table. So a cancel overtakes
its order just if it is entered between these two steps of the reader.

* `Did.accepts`: a command accepts no order but its own, once.
* `Harness.Sound`: what holds across the threads; `Sound.step`: every step keeps it, and none panics.
* `Harness.Counted`: the table and the counters.
* `harness_counts_every_slot`: in every interleaving; at rest nothing is pending.
-/

namespace MatchingEngine

/-- The order an event accepts. -/
def Event.acceptedKey : Event → Option Key
  | .accepted accountId orderId _ => some (accountId, orderId)
  | _ => none

/-- The order a command may have accepted. -/
def Command.acceptable : Command → List Key
  | .newOrder accountId orderId .. => [(accountId, orderId)]
  | _ => []

theorem Event.acceptedKey_of_silent {ev : Event} (h : ev.isAnswer = false) : ev.acceptedKey = none := by
  cases ev with
  | accepted a i q => cases h
  | _ => rfl

theorem acceptedKeys_silent {evs : List Event} (h : ∀ ev ∈ evs, ev.isAnswer = false) :
    evs.filterMap Event.acceptedKey = [] :=
  List.filterMap_eq_nil_iff.2 fun ev hev => Event.acceptedKey_of_silent (h ev hev)

namespace Ref

variable {r r' : Ref} {c : Command} {evs : List Event}

/-- **A command accepts no order but its own, once.** -/
theorem Did.accepts (hd : Did r c r' evs) (h : r.WF) : (evs.filterMap Event.acceptedKey).Sublist c.acceptable := by
  have hsilent : ∀ {evs : List Event}, (∀ ev ∈ evs, ev.isAnswer = false) →
      (evs.filterMap Event.acceptedKey).Sublist c.acceptable := by
    intro evs hevs
    rw [acceptedKeys_silent hevs]
    exact List.nil_sublist _
  cases hd with
  | idle quiet =>
    have hnone : evs.filterMap Event.acceptedKey = [] := by
      refine List.filterMap_eq_nil_iff.2 fun ev hev => ?_
      have hq := quiet ev hev
      cases ev with
      | accepted a i q => exact hq.elim
      | _ => rfl
    rw [hnone]
    exact List.nil_sublist _
  | entered limit rests =>
    rw [List.filterMap_append, acceptedKeys_silent (h.sweep_noAnswer _ _ _ _ _)]
    exact List.Sublist.refl _
  | posted =>
    rw [List.filterMap_append, acceptedKeys_silent (by simp [Event.isAnswer])]
    exact List.Sublist.refl _
  | refused =>
    rw [List.filterMap_append, acceptedKeys_silent (by simp [Event.isAnswer])]
    exact List.nil_sublist _
  | amended => exact List.nil_sublist _
  | requeued found =>
    have h1 := h.remove (find_some found).1
    rw [List.filterMap_cons_none rfl, acceptedKeys_silent (h1.sweep_noAnswer _ _ _ _ _)]
    exact List.nil_sublist _
  | cancelled => exact List.nil_sublist _
  | emptied => exact hsilent (by simp [massCancel, Event.isAnswer])

end Ref

/-- The same behind the gate. -/
theorem System.processCommand_accepts {P : Profile} (hP : P.Total) {s s' : System} {r : Ref}
    (hs : Sim P ⊤ s.engine.book r) {c : Command} (hc : c.Decodable) {evs : List (ℕ × Event)}
    (h : s.processCommand P c = .ok (s', evs)) :
    ((evs.map Prod.snd).filterMap Event.acceptedKey).Sublist c.acceptable := by
  rcases processCommand_gate h with ⟨ev, hg, -, rfl⟩ | ⟨-, evs', ha, rfl⟩
  · obtain ⟨a, i, reason, rfl, -⟩ := RiskState.preApplyCheck_answers hg
    exact List.nil_sublist _
  · obtain ⟨rfl, -⟩ := hs.applied hP hc ha
    rw [map_snd_numbered]
    have hdid := (r.did P c).accepts hs.wf
    rcases r.apply_emits P c with he | ⟨bid, ask, he⟩
    · rw [he]
      exact hdid
    · rw [he, List.filterMap_append, List.filterMap_cons_none rfl, List.filterMap_nil, List.append_nil]
      exact hdid

/-- The correlation id is the id the gateway routes by. -/
theorem eventCorrelationId_eq (ev : Event) : eventCorrelationId ev = eventId ev := by
  cases ev <;> rfl

theorem Traffic.le {n m : ℕ} {cs : List Command} (h : Traffic n cs m) : n ≤ m := by
  induction h with
  | nil => exact le_refl _
  | order _ _ ih => omega
  | cancel _ ih => exact ih

theorem Traffic.snoc_order {n m : ℕ} {cs : List Command} {c : Command} (h : Traffic n cs m)
    (hc : Workload.SendsOrder m c) : Traffic n (cs ++ [c]) (m + 1) := by
  induction h with
  | nil => exact .order hc .nil
  | order sends _ ih => exact .order sends (ih hc)
  | cancel _ ih => exact .cancel (ih hc)

theorem Traffic.snoc_cancel {n m : ℕ} {cs : List Command} (h : Traffic n cs m) (a i : ℕ) :
    Traffic n (cs ++ [.cancelOrder a i]) m := by
  induction h with
  | nil => exact .cancel .nil
  | order sends _ ih => exact .order sends ih
  | cancel _ ih => exact .cancel ih

/-- A stream with an order in it raises the number. -/
theorem Traffic.lt {n m : ℕ} {cs : List Command} (h : Traffic n cs m) {c : Command} (hc : c ∈ cs)
    (horder : ∀ a i, c ≠ .cancelOrder a i) : n < m := by
  induction h with
  | nil => cases hc
  | order _ rest _ => exact rest.le
  | cancel _ ih =>
    rcases List.mem_cons.1 hc with rfl | hc
    · exact absurd rfl (horder _ _)
    · exact ih hc

namespace Workload

theorem SendsOrder.decodable {n : ℕ} {c : Command} (h : SendsOrder n c) (hn : n < 2 ^ 63) : c.Decodable := by
  cases h with
  | limit hlow hhigh hpos hqty =>
    refine ⟨by omega, by omega, by omega, by omega, by omega, by omega, fun _ => by omega⟩
  | market => exact ⟨by omega, by omega, by omega, by omega, by omega, by omega, fun hk => by cases hk⟩

theorem SendsOrder.selfId {n : ℕ} {c : Command} (h : SendsOrder n c) :
    commandSelfId c = some (n % 256 + 1, n + 1) ∧ c.acceptable = [(n % 256 + 1, n + 1)] ∧
      ∀ a i, c ≠ .cancelOrder a i := by
  cases h with
  | limit => exact ⟨rfl, rfl, by simp⟩
  | market => exact ⟨rfl, rfl, by simp⟩

/-- What a reply does to the pool: an acceptance may add its order at the back, nothing else is added. -/
theorem observe_pool (w : Workload) (ev : Event) :
    (∃ a i q, ev = .accepted a i q ∧ 0 < q ∧ (w.observe ev).restingPool = w.restingPool ++ [(a, i)]) ∨
      ((w.observe ev).restingPool).Sublist w.restingPool := by
  cases ev with
  | accepted a i q =>
    by_cases hq : q > 0
    · refine Or.inl ⟨a, i, q, rfl, hq, ?_⟩
      simp [observe, hq]
    · right
      simp [observe, hq]
  | cancelled a i => exact Or.inr List.filter_sublist
  | filled a i s p q v st =>
    right
    by_cases hv : v = 0
    · simp only [observe, if_pos hv]
      exact List.filter_sublist
    · simp [observe, hv]
  | _ => exact Or.inr (List.Sublist.refl _)

end Workload

/-- **The daemon's turn**: an order of the workload or a cancel is processed, answered to the connection it came from,
and no order but its own is accepted there. -/
theorem Matching.step_bench {t : Matching} {c : Command} {m : ℕ} (hserves : t.system.Serves c m) {k : Key}
    (hc : c.Decodable) (hid : commandSelfId c = some k) {n : ℕ} (ht : t.system.Bursting n) (connId : ConnId) :
    ∃ t' out, t.step .release (connId, c) = .ok (t', out) ∧ t'.system.Bursting m ∧
      (∃ ev ∈ (out.returns.filter (fun x => x.1 = connId)).map (fun x => x.2.2), eventId ev = some k) ∧
      (((out.returns.filter (fun x => x.1 = connId)).map (fun x => x.2.2)).filterMap Event.acceptedKey).Sublist
        c.acceptable := by
  obtain ⟨s', evs, hp, -, hburst⟩ := hserves
  obtain ⟨r, hs, -⟩ := ht.book
  obtain ⟨out, hfold, -⟩ := @foldlM_emit connId (commandSelfId c) evs t.restingConn ⟨[], []⟩
  have hstep : t.step .release (connId, c) = .ok (⟨s', (evs.map Prod.snd).foldl (after connId (commandSelfId c))
      t.restingConn, t.recorder.map (· ++ commandBytes c)⟩, out) := by
    unfold Matching.step
    simp only [record_eq, hp, hfold, bind, Except.bind, pure, Except.pure]
  refine ⟨_, out, hstep, hburst, ?_, ?_⟩
  · obtain ⟨ev, hack⟩ := step_acknowledged Profile.release_total hs hc hid hstep
    have hmem : (connId, t.system.engineSeq + 1, ev) ∈ out.returns.filter (fun x => x.2.2.acknowledges c) := by
      rw [hack]
      exact List.mem_singleton_self _
    obtain ⟨hin, hacks⟩ := List.mem_filter.1 hmem
    refine ⟨ev, List.mem_map.2 ⟨_, List.mem_filter.2 ⟨hin, decide_eq_true rfl⟩, rfl⟩, ?_⟩
    simp only [Event.acknowledges, Bool.and_eq_true, decide_eq_true_eq] at hacks
    rw [hacks.1, hid]
  · obtain ⟨evs', hp', -, hall, -⟩ := step_cases hstep
    have haccepts := System.processCommand_accepts Profile.release_total hs hc hp'
    have hret : out.returns.map (fun x => x.2.2) = (evs'.filter (fun e => !e.2.isMarketData)).map Prod.snd := by
      rw [← hall, List.map_map]
      rfl
    have hsub : ((out.returns.filter (fun x => x.1 = connId)).map (fun x => x.2.2)).Sublist (evs'.map Prod.snd) := by
      refine (List.filter_sublist.map _).trans ?_
      rw [hret]
      exact List.filter_sublist.map _
    exact (hsub.filterMap _).trans haccepts

/-! ### The threads together -/

namespace SenderState

/-- The command the sender has drawn and not written. -/
def held : SenderState → List Command
  | .ready => []
  | .drawn _ cmd => [cmd]
  | .entered cmd => [cmd]

/-- The same, if its key is in the table. -/
def heldEntered : SenderState → List Command
  | .entered cmd => [cmd]
  | _ => []

/-- The order the sender is about to cancel. -/
def cancels : SenderState → List Key
  | .drawn key (.cancelOrder _ _) => [key]
  | _ => []

end SenderState

namespace Harness

/-- The orders cancels may still name: the pool, and the cancel that is drawn and not entered. -/
def known (h : Harness) : List Key := h.workload.restingPool ++ h.sender.cancels

/-- The orders accepted in replies the reader has not seen. -/
def acceptances (h : Harness) : List Key := h.replies.filterMap Event.acceptedKey

/-- What holds across the threads, with `n` orders drawn and `m` processed. -/
structure Sound (config : RunConfig) (n m : ℕ) (h : Harness) : Prop where
  workload : h.workload.At n
  daemon : h.matching.system.Bursting m
  /-- What is on the way to the daemon: its orders are numbered on from `m`. -/
  traffic : Traffic m (h.written ++ h.sender.held) n
  decodable : ∀ c ∈ h.written ++ h.sender.held, c.Decodable
  orders_le : n ≤ h.slot + h.sender.held.length
  slots_le : h.slot + h.sender.held.length ≤ config.messages
  /-- The sender enters a command under its own key; an order is new. -/
  named : ∀ k c, h.sender = .drawn k c → commandSelfId c = some k
  latest : ∀ k c, h.sender = .drawn k c → (∀ a i, c ≠ .cancelOrder a i) → k.2 = n ∧ ∀ k' ∈ h.pending, k'.2 < k.2
  /-- Every order is accepted once, and cancelled from the pool once, after that. -/
  accepted : h.acceptances.Nodup
  accepted_old : ∀ k ∈ h.acceptances, k.1 ≤ 256 ∧ k.2 ≤ m
  known_once : h.known.Nodup
  known_old : ∀ k ∈ h.known, k.1 ≤ 256 ∧ k.2 ≤ m
  known_seen : ∀ k ∈ h.known, k ∉ h.acceptances
  /-- A key that a cancel may name is in the table only while the reader stands at its acceptance. -/
  known_free : ∀ k ∈ h.known, k ∈ h.pending → ∃ q, 0 < q ∧ h.observed = some (.accepted k.1 k.2 q)
  pending_old : ∀ k ∈ h.pending, k.2 ≤ n
  /-- What is pending has its command or a reply on the way. -/
  covered : ∀ k ∈ h.pending, (∃ c ∈ h.written ++ h.sender.heldEntered, commandSelfId c = some k) ∨
    ∃ ev, (ev ∈ h.replies ∨ h.observed = some ev) ∧ eventId ev = some k

variable {config : RunConfig} {n m : ℕ} {h h' : Harness}

theorem Sound.start (config : RunConfig) (mix : Mix) (seed : UInt64) : Sound config 0 0 (start mix seed) where
  workload := Workload.At.new mix seed
  daemon := System.Bursting.new
  traffic := .nil
  decodable := by simp [Harness.start, SenderState.held]
  orders_le := Nat.zero_le _
  slots_le := Nat.zero_le _
  named := by simp [Harness.start]
  latest := by simp [Harness.start]
  accepted := List.nodup_nil
  accepted_old := by simp [Harness.start, acceptances]
  known_once := List.nodup_nil
  known_old := by simp [Harness.start, known, Workload.new, SenderState.cancels]
  known_seen := by simp [Harness.start, known, Workload.new, SenderState.cancels]
  known_free := by simp [Harness.start, known, Workload.new, SenderState.cancels]
  pending_old := fun _ hk => absurd hk Finmap.notMem_empty
  covered := fun _ hk => absurd hk Finmap.notMem_empty

/-- A draw. -/
theorem Sound.draw (hs : Sound config n m h) (hready : h.sender = .ready) (hslot : h.slot < config.messages) {k : Key}
    {c : Command} {w : Workload} (hdrawn : h.workload.Drawn n k c w) (hbound : n < 2 ^ 62) :
    ∃ n', Sound config n' m { h with workload := w, sender := .drawn k c } := by
  have htraffic := hs.traffic
  have hdec := hs.decodable
  have horders := hs.orders_le
  have hknown : h.known = h.workload.restingPool := by
    unfold known
    rw [hready]
    exact List.append_nil _
  rw [hready] at htraffic hdec horders
  change Traffic m (h.written ++ []) n at htraffic
  change n ≤ h.slot at horders
  rw [List.append_nil] at htraffic
  have hwritten : ∀ c ∈ h.written, c.Decodable := fun c hc => hdec c (List.mem_append_left _ hc)
  have hcovered := hs.covered
  rw [hready] at hcovered
  cases hdrawn with
  | order sends next pool =>
    obtain ⟨hself, -, hnot⟩ := sends.selfId
    have hsame : ({ h with workload := w, sender := .drawn (n % 256 + 1, n + 1) c } : Harness).known = h.known := by
      rw [hknown]
      show w.restingPool ++ SenderState.cancels (.drawn _ c) = _
      rw [pool]
      cases sends with
      | limit => exact List.append_nil _
      | market => exact List.append_nil _
    refine ⟨n + 1, next, hs.daemon, htraffic.snoc_order sends, ?_, ?_, ?_, ?_, ?_, hs.accepted, hs.accepted_old,
      hsame ▸ hs.known_once, hsame ▸ hs.known_old, ?_, ?_, ?_, hcovered⟩
    · exact List.forall_mem_append.2 ⟨hwritten, List.forall_mem_singleton.2 (sends.decodable (by omega))⟩
    · show n + 1 ≤ h.slot + 1
      omega
    · show h.slot + 1 ≤ config.messages
      omega
    · intro k' c' hk'
      obtain ⟨rfl, rfl⟩ := SenderState.drawn.inj hk'
      exact hself
    · intro k' c' hk' _
      obtain ⟨rfl, rfl⟩ := SenderState.drawn.inj hk'
      refine ⟨rfl, fun k' hk' => ?_⟩
      have hold := hs.pending_old k' hk'
      show k'.2 < n + 1
      omega
    · rw [hsame]
      exact hs.known_seen
    · rw [hsame]
      exact hs.known_free
    · intro k' hk'
      have hold := hs.pending_old k' hk'
      omega
  | @cancel a i w next pool =>
    -- the key moves from the pool to the sender
    have hperm : (w.restingPool ++ SenderState.cancels (.drawn (a, i) (.cancelOrder a i))).Perm h.known := by
      rw [hknown, pool]
      exact List.perm_append_singleton _ _
    have hold : (a, i) ∈ h.known := by
      rw [hknown, pool]
      exact List.mem_cons_self
    refine ⟨n, next, hs.daemon, htraffic.snoc_cancel a i, ?_, ?_, ?_, ?_, ?_, hs.accepted, hs.accepted_old,
      hperm.nodup_iff.2 hs.known_once, fun k' hk' => hs.known_old k' (hperm.mem_iff.1 hk'),
      fun k' hk' => hs.known_seen k' (hperm.mem_iff.1 hk'), fun k' hk' => hs.known_free k' (hperm.mem_iff.1 hk'),
      hs.pending_old, hcovered⟩
    · refine List.forall_mem_append.2 ⟨hwritten, List.forall_mem_singleton.2 ?_⟩
      obtain ⟨ha, hi⟩ := hs.known_old _ hold
      have hle := htraffic.le
      have ha : a ≤ 256 := ha
      have hi : i ≤ m := hi
      exact ⟨by omega, by omega⟩
    · show n ≤ h.slot + 1
      omega
    · show h.slot + 1 ≤ config.messages
      omega
    · intro k' c' hk'
      obtain ⟨rfl, rfl⟩ := SenderState.drawn.inj hk'
      rfl
    · intro k' c' hk' hnot
      obtain ⟨rfl, rfl⟩ := SenderState.drawn.inj hk'
      exact absurd rfl (hnot a i)

/-- The key is entered. -/
theorem Sound.enter (hs : Sound config n m h) {k : Key} {c : Command} (hdrawn : h.sender = .drawn k c) {keys : List Key}
    {overtaken : List ℕ} : Sound config n m { h with
      sender := .entered c, pending := h.pending.insert k h.slot, keys := keys, overtaken := overtaken } := by
  have htraffic := hs.traffic
  have hdec := hs.decodable
  have horders := hs.orders_le
  have hslots := hs.slots_le
  have hcovered := hs.covered
  rw [hdrawn] at htraffic hdec horders hslots hcovered
  have hself := hs.named k c hdrawn
  have hpool : ∀ k' ∈ h.workload.restingPool, k' ∈ h.known := fun k' hk' => List.mem_append_left _ hk'
  have hknown : h.workload.restingPool ++ SenderState.cancels (.entered c) = h.workload.restingPool :=
    List.append_nil _
  -- an order is newer than all in the pool, and a cancel's key has left the pool
  have hfresh : k ∉ h.workload.restingPool ∧ k.2 ≤ n := by
    by_cases hcancel : ∃ a i, c = .cancelOrder a i
    · obtain ⟨a, i, rfl⟩ := hcancel
      have hmem : k ∈ h.known := by
        unfold known
        rw [hdrawn]
        exact List.mem_append_right _ (List.mem_singleton_self k)
      have hnodup := hs.known_once
      unfold known at hnodup
      rw [hdrawn] at hnodup
      refine ⟨fun hin => ?_, (hs.known_old k hmem).2.trans htraffic.le⟩
      exact (List.nodup_append.1 hnodup).2.2 k hin k (List.mem_singleton_self k) rfl
    · have hnot : ∀ a i, c ≠ .cancelOrder a i := fun a i hc => hcancel ⟨a, i, hc⟩
      obtain ⟨hlast, -⟩ := hs.latest k c hdrawn hnot
      have hlt := htraffic.lt (List.mem_append_right _ (List.mem_singleton_self c)) hnot
      refine ⟨fun hin => ?_, hlast.le⟩
      have hold := (hs.known_old k (hpool k hin)).2
      omega
  refine ⟨hs.workload, hs.daemon, htraffic, hdec, horders, hslots, by simp, by simp, hs.accepted, hs.accepted_old,
    ?_, ?_, ?_, ?_, ?_, ?_⟩
  · show (h.workload.restingPool ++ SenderState.cancels (.entered c)).Nodup
    rw [hknown]
    exact (List.nodup_append.1 hs.known_once).1
  · show ∀ k' ∈ h.workload.restingPool ++ SenderState.cancels (.entered c), _
    rw [hknown]
    exact fun k' hk' => hs.known_old k' (hpool k' hk')
  · show ∀ k' ∈ h.workload.restingPool ++ SenderState.cancels (.entered c), _
    rw [hknown]
    exact fun k' hk' => hs.known_seen k' (hpool k' hk')
  · show ∀ k' ∈ h.workload.restingPool ++ SenderState.cancels (.entered c), _
    rw [hknown]
    intro k' hk' hpend
    rcases Finmap.mem_insert.1 hpend with rfl | hpend
    · exact absurd hk' hfresh.1
    · exact hs.known_free k' (hpool k' hk') hpend
  · intro k' hpend
    rcases Finmap.mem_insert.1 hpend with rfl | hpend
    · exact hfresh.2
    · exact hs.pending_old k' hpend
  · intro k' hpend
    rcases Finmap.mem_insert.1 hpend with rfl | hpend
    · exact Or.inl ⟨c, List.mem_append_right _ (List.mem_singleton_self c), hself⟩
    · rcases hcovered k' hpend with ⟨c', hc', hid⟩ | hreply
      · exact Or.inl ⟨c', List.mem_append_left _ (by simpa [SenderState.heldEntered] using hc'), hid⟩
      · exact Or.inr hreply

/-- The command is written. -/
theorem Sound.write (hs : Sound config n m h) {c : Command} (hentered : h.sender = .entered c) :
    Sound config n m { h with sender := .ready, slot := h.slot + 1, written := h.written ++ [c] } := by
  have htraffic := hs.traffic
  have hdec := hs.decodable
  have horders := hs.orders_le
  have hslots := hs.slots_le
  have hcovered := hs.covered
  have hold := hs.known_old
  have hseen := hs.known_seen
  have hfree := hs.known_free
  have honce := hs.known_once
  unfold known at hold hseen hfree honce
  rw [hentered] at htraffic hdec horders hslots hcovered hold hseen hfree honce
  refine ⟨hs.workload, hs.daemon, ?_, ?_, horders, hslots, by simp, by simp, hs.accepted, hs.accepted_old, honce, hold,
    hseen, hfree, hs.pending_old, ?_⟩
  · show Traffic m (h.written ++ [c] ++ []) n
    rw [List.append_nil]
    exact htraffic
  · show ∀ c' ∈ h.written ++ [c] ++ [], c'.Decodable
    rw [List.append_nil]
    exact hdec
  · show ∀ k ∈ h.pending, (∃ c' ∈ h.written ++ [c] ++ [], commandSelfId c' = some k) ∨ _
    rw [List.append_nil]
    exact hcovered

/-- The daemon has taken a command: `m` orders before it and `m'` with it. -/
theorem Sound.processed (hs : Sound config n m h) {c : Command} {written : List Command}
    (hwritten : h.written = c :: written) {m' : ℕ} (hm : m ≤ m') (htraffic : Traffic m' (written ++ h.sender.held) n)
    {k : Key} (hid : commandSelfId c = some k) {t : Matching} (ht : t.system.Bursting m') {replies : List Event}
    (hreply : ∃ ev ∈ replies, eventId ev = some k)
    (haccepts : (replies.filterMap Event.acceptedKey).Sublist c.acceptable)
    (hfresh : ∀ k ∈ c.acceptable, k.1 ≤ 256 ∧ m < k.2 ∧ k.2 ≤ m') (hone : c.acceptable.Nodup) :
    Sound config n m' { h with written := written, matching := t, replies := h.replies ++ replies } := by
  have hdec := hs.decodable
  have hcovered := hs.covered
  rw [hwritten] at hdec hcovered
  have hnew : ∀ k ∈ replies.filterMap Event.acceptedKey, k.1 ≤ 256 ∧ m < k.2 ∧ k.2 ≤ m' :=
    fun k hk => hfresh k (haccepts.subset hk)
  have hacc : ({ h with written := written, matching := t, replies := h.replies ++ replies } : Harness).acceptances =
      h.acceptances ++ replies.filterMap Event.acceptedKey := List.filterMap_append
  refine ⟨hs.workload, ht, htraffic, fun c' hc' => hdec c' (List.mem_cons_of_mem _ hc'), hs.orders_le, hs.slots_le,
    hs.named, hs.latest, ?_, ?_, hs.known_once, ?_, ?_, hs.known_free, hs.pending_old, ?_⟩
  · rw [hacc]
    refine List.nodup_append.2 ⟨hs.accepted, hone.sublist haccepts, ?_⟩
    rintro k' hk' _ hk'' rfl
    have hold := (hs.accepted_old k' hk').2
    have hgt := (hnew k' hk'').2.1
    omega
  · rw [hacc]
    refine List.forall_mem_append.2 ⟨fun k' hk' => ?_, fun k' hk' => ?_⟩
    · obtain ⟨ha, hi⟩ := hs.accepted_old k' hk'
      exact ⟨ha, hi.trans hm⟩
    · obtain ⟨ha, -, hi⟩ := hnew k' hk'
      exact ⟨ha, hi⟩
  · intro k' hk'
    obtain ⟨ha, hi⟩ := hs.known_old k' hk'
    exact ⟨ha, hi.trans hm⟩
  · intro k' hk' hin
    rw [hacc] at hin
    rcases List.mem_append.1 hin with hin | hin
    · exact hs.known_seen k' hk' hin
    · have hold := (hs.known_old k' hk').2
      have hgt := (hnew k' hin).2.1
      omega
  · intro k' hpend
    rcases hcovered k' hpend with ⟨c', hc', hid'⟩ | ⟨ev, hev, hid'⟩
    · rcases List.mem_cons.1 hc' with rfl | hc'
      · -- its answer is on the way
        obtain ⟨ev, hev, hek⟩ := hreply
        exact Or.inr ⟨ev, Or.inl (List.mem_append_right _ hev), by rw [hek, ← hid, hid']⟩
      · exact Or.inl ⟨c', hc', hid'⟩
    · refine Or.inr ⟨ev, ?_, hid'⟩
      exact hev.imp_left (List.mem_append_left _)

/-- **The daemon's step.** -/
theorem Sound.process (hs : Sound config n m h) (hburst : config.messages ≤ 84000000) {c : Command}
    {written : List Command} (hwritten : h.written = c :: written) :
    ∃ t out m', h.matching.step .release (connId, c) = .ok (t, out) ∧
      Sound config n m' { h with
        written := written
        matching := t
        replies := h.replies ++ (out.returns.filter (fun x => x.1 = connId)).map (fun x => x.2.2) } := by
  have htraffic := hs.traffic
  have hdec := hs.decodable c (by rw [hwritten]; exact List.mem_append_left _ List.mem_cons_self)
  rw [hwritten] at htraffic
  have hle := htraffic.le
  have horders := hs.orders_le
  have hslots := hs.slots_le
  cases htraffic with
  | order sends rest =>
    obtain ⟨hid, hacceptable, -⟩ := sends.selfId
    obtain ⟨t, out, hstep, ht, hreply, haccepts⟩ :=
      Matching.step_bench (hs.daemon.order (by omega) sends) hdec hid hs.daemon connId
    refine ⟨t, out, m + 1, hstep, hs.processed hwritten (Nat.le_succ m) rest hid ht hreply haccepts ?_ ?_⟩
    · rw [hacceptable]
      refine List.forall_mem_singleton.2 ⟨?_, Nat.lt_succ_self m, le_refl _⟩
      show m % 256 + 1 ≤ 256
      omega
    · rw [hacceptable]
      exact List.nodup_singleton _
  | @cancel _ _ a i _ rest =>
    obtain ⟨t, out, hstep, ht, hreply, haccepts⟩ :=
      Matching.step_bench (hs.daemon.cancel a i) hdec rfl hs.daemon connId
    exact ⟨t, out, m, hstep, hs.processed hwritten (le_refl m) rest rfl ht hreply haccepts (fun _ hk => nomatch hk)
      List.nodup_nil⟩

/-- The workload is shown a reply. -/
theorem Sound.observe (hs : Sound config n m h) (hidle : h.observed = none) {ev : Event} {replies : List Event}
    (hreplies : h.replies = ev :: replies) :
    Sound config n m { h with workload := h.workload.observe ev, observed := some ev, replies := replies } := by
  set h' : Harness := { h with workload := h.workload.observe ev, observed := some ev, replies := replies } with hh'
  -- nothing a cancel may name is in the table
  have hfree : ∀ k ∈ h.known, k ∉ h.pending := by
    intro k hk hpend
    obtain ⟨q, -, hobs⟩ := hs.known_free k hk hpend
    rw [hidle] at hobs
    cases hobs
  have hacc : h.acceptances = [ev].filterMap Event.acceptedKey ++ h'.acceptances := by
    unfold acceptances
    rw [hreplies, ← List.filterMap_append]
    rfl
  have hsub : h'.acceptances.Sublist h.acceptances := by
    rw [hacc]
    exact List.sublist_append_right _ _
  have hold : ∀ k ∈ h.known, (k.1 ≤ 256 ∧ k.2 ≤ m) ∧ k ∉ h'.acceptances ∧
      (k ∈ h.pending → ∃ q, 0 < q ∧ some ev = some (.accepted k.1 k.2 q)) := fun k hk =>
    ⟨hs.known_old k hk, fun hin => hs.known_seen k hk (hsub.subset hin), fun hpend => absurd hpend (hfree k hk)⟩
  have hknown : h'.known.Nodup ∧ ∀ k ∈ h'.known, (k.1 ≤ 256 ∧ k.2 ≤ m) ∧ k ∉ h'.acceptances ∧
      (k ∈ h.pending → ∃ q, 0 < q ∧ some ev = some (.accepted k.1 k.2 q)) := by
    rcases h.workload.observe_pool ev with ⟨a, i, q, rfl, hq, hpool⟩ | hpool
    · -- the order joins the pool
      have hmem : (a, i) ∈ h.acceptances := by
        rw [hacc]
        exact List.mem_append_left _ List.mem_cons_self
      have hperm : h'.known.Perm ((a, i) :: h.known) := by
        unfold known
        rw [show h'.workload.restingPool = h.workload.restingPool ++ [(a, i)] from hpool, List.append_assoc]
        exact List.perm_middle
      have honce : (a, i) ∉ h'.acceptances := by
        have hnodup := hs.accepted
        rw [hacc] at hnodup
        exact fun hin => (List.nodup_append.1 hnodup).2.2 _ List.mem_cons_self _ hin rfl
      refine ⟨hperm.nodup_iff.2 (List.nodup_cons.2 ⟨fun hk => hs.known_seen _ hk hmem, hs.known_once⟩), fun k hk => ?_⟩
      rcases List.mem_cons.1 (hperm.mem_iff.1 hk) with rfl | hk
      · exact ⟨hs.accepted_old _ hmem, honce, fun _ => ⟨q, hq, rfl⟩⟩
      · exact hold k hk
    · have hless : h'.known.Sublist h.known := hpool.append_right _
      exact ⟨hs.known_once.sublist hless, fun k hk => hold k (hless.subset hk)⟩
  obtain ⟨honce, hall⟩ := hknown
  refine ⟨hs.workload.observe ev, hs.daemon, hs.traffic, hs.decodable, hs.orders_le, hs.slots_le, hs.named, hs.latest,
    hs.accepted.sublist hsub, fun k hk => hs.accepted_old k (hsub.subset hk), honce, fun k hk => (hall k hk).1,
    fun k hk => (hall k hk).2.1, fun k hk => (hall k hk).2.2, hs.pending_old, fun k hpend => ?_⟩
  rcases hs.covered k hpend with hcmd | ⟨ev', hev', hid⟩
  · exact Or.inl hcmd
  · rcases hev' with hev' | hev'
    · rw [hreplies] at hev'
      rcases List.mem_cons.1 hev' with rfl | hev'
      · exact Or.inr ⟨ev', Or.inr rfl, hid⟩
      · exact Or.inr ⟨ev', Or.inl hev', hid⟩
    · rw [hidle] at hev'
      cases hev'

/-- What a reply leaves in the table. -/
theorem mem_correlate (config : RunConfig) (h : Harness) (ev : Event) (k : Key) :
    k ∈ (h.correlate config ev).pending ↔ k ∈ h.pending ∧ eventId ev ≠ some k := by
  unfold correlate
  rw [eventCorrelationId_eq]
  cases hid : eventId ev with
  | none => simp
  | some id =>
    simp only
    cases hl : h.pending.lookup id with
    | none =>
      have hnot := Finmap.lookup_eq_none.1 hl
      refine ⟨fun hk => ⟨hk, ?_⟩, fun hk => hk.1⟩
      rintro heq
      rw [Option.some.inj heq] at hnot
      exact hnot hk
    | some slot =>
      rw [Finmap.mem_erase, and_comm]
      refine and_congr_right fun _ => ?_
      rw [ne_eq, ne_eq, Option.some.injEq, eq_comm]

/-- The reply is correlated. -/
theorem Sound.correlate (hs : Sound config n m h) {ev : Event} (hobs : h.observed = some ev) :
    Sound config n m (h.correlate config ev) := by
  have hrest : (h.correlate config ev).workload = h.workload ∧ (h.correlate config ev).sender = h.sender ∧
      (h.correlate config ev).slot = h.slot ∧ (h.correlate config ev).written = h.written ∧
      (h.correlate config ev).matching = h.matching ∧ (h.correlate config ev).replies = h.replies ∧
      (h.correlate config ev).observed = none := by
    unfold Harness.correlate
    split
    · exact ⟨rfl, rfl, rfl, rfl, rfl, rfl, rfl⟩
    · split
      · exact ⟨rfl, rfl, rfl, rfl, rfl, rfl, rfl⟩
      · exact ⟨rfl, rfl, rfl, rfl, rfl, rfl, rfl⟩
  have hmem := h.mem_correlate config ev
  generalize h.correlate config ev = h' at hrest hmem
  obtain ⟨hw, hsender, hslot, hwritten, hmatching, hreplies, hnone⟩ := hrest
  have hknown : h'.known = h.known := by
    unfold known
    rw [hw, hsender]
  have hacc : h'.acceptances = h.acceptances := by
    unfold acceptances
    rw [hreplies]
  refine ⟨hw ▸ hs.workload, hmatching ▸ hs.daemon, ?_, ?_, ?_, ?_, ?_, ?_, hacc ▸ hs.accepted, hacc ▸ hs.accepted_old,
    hknown ▸ hs.known_once, hknown ▸ hs.known_old, ?_, ?_, fun k hk => hs.pending_old k ((hmem k).1 hk).1, ?_⟩
  · rw [hwritten, hsender]
    exact hs.traffic
  · rw [hwritten, hsender]
    exact hs.decodable
  · rw [hslot, hsender]
    exact hs.orders_le
  · rw [hslot, hsender]
    exact hs.slots_le
  · rw [hsender]
    exact hs.named
  · rw [hsender]
    intro k c hdrawn hnot
    obtain ⟨hlast, hnew⟩ := hs.latest k c hdrawn hnot
    exact ⟨hlast, fun k' hk' => hnew k' ((hmem k').1 hk').1⟩
  · rw [hknown, hacc]
    exact hs.known_seen
  · rw [hknown]
    intro k hk hpend
    obtain ⟨hpend, hne⟩ := (hmem k).1 hpend
    obtain ⟨q, -, heq⟩ := hs.known_free k hk hpend
    rw [hobs, Option.some.injEq] at heq
    exact absurd (by rw [heq]; rfl) hne
  · intro k hpend
    obtain ⟨hpend, hne⟩ := (hmem k).1 hpend
    rw [hwritten, hsender, hreplies]
    rcases hs.covered k hpend with hcmd | ⟨ev', hev', hid⟩
    · exact Or.inl hcmd
    · rcases hev' with hev' | hev'
      · exact Or.inr ⟨ev', Or.inl hev', hid⟩
      · rw [hobs, Option.some.injEq] at hev'
        rw [← hev'] at hid
        exact absurd hid hne

/-- How many orders there can be. -/
theorem Sound.few (hs : Sound config n m h) (hburst : config.messages ≤ 84000000) : n ≤ 84000000 := by
  have horders := hs.orders_le
  have hslots := hs.slots_le
  omega

/-- **Every step keeps this.** -/
theorem Sound.step (hs : Sound config n m h) (hburst : config.messages ≤ 84000000) {act : HarnessAct}
    (hstep : Stepped config h act h') : ∃ n' m', Sound config n' m' h' := by
  have hfew := hs.few hburst
  cases hstep with
  | drew ready slot draws =>
    obtain ⟨k, c, w, hnext, hdrawn⟩ := hs.workload.nextCommand (by omega)
    rw [draws] at hnext
    cases hnext
    obtain ⟨n', hs'⟩ := hs.draw ready slot hdrawn (by omega)
    exact ⟨n', m, hs'⟩
  | entered drawn => exact ⟨n, m, hs.enter drawn⟩
  | wrote entered => exact ⟨n, m, hs.write entered⟩
  | processed here takes =>
    obtain ⟨t, out, m', htakes, hs'⟩ := hs.process hburst here
    rw [takes] at htakes
    cases htakes
    exact ⟨n, m', hs'⟩
  | observed idle here => exact ⟨n, m, hs.observe idle here⟩
  | correlated here => exact ⟨n, m, hs.correlate here⟩

/-- **No step panics.** -/
theorem Sound.no_panic (hs : Sound config n m h) (hburst : config.messages ≤ 84000000) (act : HarnessAct) (p : Panic) :
    h.step config act ≠ .error (.panicked p) := by
  intro hpanic
  have hfew := hs.few hburst
  rcases step_panicked hpanic with ⟨-, -, hdraws⟩ | ⟨c, written, hwritten, htakes⟩
  · obtain ⟨k, c, w, hnext, -⟩ := hs.workload.nextCommand (by omega)
    rw [hdraws] at hnext
    cases hnext
  · obtain ⟨t, out, m', hok, -⟩ := hs.process hburst hwritten
    rw [htakes] at hok
    cases hok

/-! ### The table and the counters -/

/-- Every slot entered is measured, pending or overtaken, and only one of these; a slot is measured once, by a reply
with its key, and overtaken by a later one under its key. -/
structure Counted (config : RunConfig) (h : Harness) : Prop where
  counts : h.measured.length + h.pending.keys.card + h.overtaken.length = h.keys.length
  entered : h.keys.length = h.slot + h.sender.heldEntered.length
  samples : h.samples = h.measured.length - config.warmup
  once : (h.measured.map Prod.fst).Nodup
  by_key : ∀ x ∈ h.measured, ∃ k, h.keys[x.1]? = some k ∧ eventCorrelationId x.2 = some k
  pending_slot : ∀ k slot, h.pending.lookup k = some slot →
    h.keys[slot]? = some k ∧ slot ∉ h.measured.map Prod.fst ∧ slot ∉ h.overtaken
  overtaken_once : h.overtaken.Nodup
  overtaken_slot : ∀ slot ∈ h.overtaken, slot ∉ h.measured.map Prod.fst ∧
    ∃ k later, h.keys[slot]? = some k ∧ slot < later ∧ h.keys[later]? = some k
  somewhere : ∀ slot k, h.keys[slot]? = some k →
    slot ∈ h.measured.map Prod.fst ∨ h.pending.lookup k = some slot ∨ slot ∈ h.overtaken

theorem Counted.start (config : RunConfig) (mix : Mix) (seed : UInt64) : Counted config (Harness.start mix seed) where
  counts := rfl
  entered := rfl
  samples := (Nat.zero_sub _).symm
  once := List.nodup_nil
  by_key := fun _ hx => nomatch hx
  pending_slot := by simp [Harness.start]
  overtaken_once := List.nodup_nil
  overtaken_slot := fun _ hx => nomatch hx
  somewhere := by simp [Harness.start]

/-- A measured slot was entered. -/
theorem Counted.measured_lt (hc : Counted config h) {slot : ℕ} (hslot : slot ∈ h.measured.map Prod.fst) :
    slot < h.keys.length := by
  obtain ⟨x, hx, rfl⟩ := List.mem_map.1 hslot
  obtain ⟨k, hk, -⟩ := hc.by_key x hx
  exact (List.getElem?_eq_some_iff.1 hk).1

/-- The next slot is entered. -/
theorem Counted.enter (hc : Counted config h) {k : Key} {c : Command} (hdrawn : h.sender = .drawn k c) :
    Counted config { h with
      sender := .entered c
      pending := h.pending.insert k h.slot
      keys := h.keys ++ [k]
      overtaken := h.overtaken ++ (h.pending.lookup k).toList } := by
  have hcounts := hc.counts
  have hlen : h.keys.length = h.slot := by
    have hentered := hc.entered
    rw [hdrawn] at hentered
    exact hentered
  have hkeys : (h.pending.insert k h.slot).keys = insert k h.pending.keys := by
    ext k'
    rw [Finmap.mem_keys, Finmap.mem_insert, Finset.mem_insert, Finmap.mem_keys]
  have hgrow : ∀ (slot : ℕ) k', h.keys[slot]? = some k' → (h.keys ++ [k])[slot]? = some k' := by
    intro slot k' hget
    rw [List.getElem?_append_left (List.getElem?_eq_some_iff.1 hget).1]
    exact hget
  have hhere : (h.keys ++ [k])[h.slot]? = some k := by
    rw [← hlen, List.getElem?_append_right (le_refl _), Nat.sub_self]
    rfl
  -- what is overtaken now was pending under this key
  have hlost : ∀ slot ∈ (h.pending.lookup k).toList, h.pending.lookup k = some slot := fun slot hin =>
    Option.mem_toList.1 hin
  refine ⟨?_, ?_, hc.samples, hc.once, fun x hx => ?_, fun k' slot hl => ?_, ?_, fun slot hin => ?_, fun slot k' hget => ?_⟩
  · show h.measured.length + (h.pending.insert k h.slot).keys.card + (h.overtaken ++ (h.pending.lookup k).toList).length = _
    rw [hkeys, List.length_append, List.length_append, List.length_singleton]
    cases hl : h.pending.lookup k with
    | some slot =>
      rw [Finset.insert_eq_of_mem (Finmap.mem_keys.2 (Finmap.mem_of_lookup_eq_some hl)), Option.toList_some,
        List.length_singleton]
      omega
    | none =>
      rw [Finset.card_insert_of_notMem (fun hin => Finmap.lookup_eq_none.1 hl (Finmap.mem_keys.1 hin)), Option.toList_none,
        List.length_nil]
      omega
  · show (h.keys ++ [k]).length = h.slot + 1
    rw [List.length_append, hlen]
    rfl
  · obtain ⟨k', hget, hid⟩ := hc.by_key x hx
    exact ⟨k', hgrow _ _ hget, hid⟩
  · change (h.pending.insert k h.slot).lookup k' = some slot at hl
    by_cases heq : k' = k
    · subst heq
      rw [Finmap.lookup_insert, Option.some.injEq] at hl
      subst hl
      refine ⟨hhere, fun hin => ?_, fun hin => ?_⟩
      · have hlt := hc.measured_lt hin
        omega
      · -- an overtaken slot was entered before
        have hold : h.slot < h.keys.length := by
          rcases List.mem_append.1 hin with hin | hin
          · obtain ⟨-, k, later, hget, -, -⟩ := hc.overtaken_slot _ hin
            exact (List.getElem?_eq_some_iff.1 hget).1
          · exact (List.getElem?_eq_some_iff.1 (hc.pending_slot _ _ (hlost _ hin)).1).1
        omega
    · rw [Finmap.lookup_insert_of_ne _ heq] at hl
      obtain ⟨hget, hnot, hfree⟩ := hc.pending_slot k' slot hl
      refine ⟨hgrow _ _ hget, hnot, fun hin => ?_⟩
      rcases List.mem_append.1 hin with hin | hin
      · exact hfree hin
      · -- two keys are not entered in one slot
        have hget' := (hc.pending_slot k slot (hlost _ hin)).1
        rw [hget, Option.some.injEq] at hget'
        exact heq hget'
  · refine List.nodup_append.2 ⟨hc.overtaken_once, ?_, ?_⟩
    · cases h.pending.lookup k with
      | none => exact List.nodup_nil
      | some slot => exact List.nodup_singleton slot
    · rintro slot hin _ hslot rfl
      exact (hc.pending_slot k slot (hlost _ hslot)).2.2 hin
  · rcases List.mem_append.1 hin with hin | hin
    · obtain ⟨hnot, k', later, hget, hlt, hlater⟩ := hc.overtaken_slot slot hin
      exact ⟨hnot, k', later, hgrow _ _ hget, hlt, hgrow _ _ hlater⟩
    · obtain ⟨hget, hnot, -⟩ := hc.pending_slot k slot (hlost _ hin)
      have hlt := (List.getElem?_eq_some_iff.1 hget).1
      exact ⟨hnot, k, h.slot, hgrow _ _ hget, by omega, hhere⟩
  · change (h.keys ++ [k])[slot]? = some k' at hget
    show slot ∈ h.measured.map Prod.fst ∨ (h.pending.insert k h.slot).lookup k' = some slot ∨
      slot ∈ h.overtaken ++ (h.pending.lookup k).toList
    by_cases hlt : slot < h.keys.length
    · rw [List.getElem?_append_left hlt] at hget
      rcases hc.somewhere slot k' hget with hin | hl | hin
      · exact Or.inl hin
      · by_cases heq : k' = k
        · subst heq
          rw [hl]
          exact Or.inr (Or.inr (List.mem_append_right _ (List.mem_singleton_self slot)))
        · rw [Finmap.lookup_insert_of_ne _ heq]
          exact Or.inr (Or.inl hl)
      · exact Or.inr (Or.inr (List.mem_append_left _ hin))
    · -- the slot just entered
      obtain ⟨hbound, -⟩ := List.getElem?_eq_some_iff.1 hget
      rw [List.length_append, List.length_singleton] at hbound
      obtain rfl : slot = h.slot := by omega
      rw [hhere, Option.some.injEq] at hget
      subst hget
      exact Or.inr (Or.inl (Finmap.lookup_insert _))

/-- A slot is measured. -/
theorem Counted.correlate (hc : Counted config h) (ev : Event) : Counted config (h.correlate config ev) := by
  unfold Harness.correlate
  cases hid : eventCorrelationId ev with
  | none =>
    exact ⟨hc.counts, hc.entered, hc.samples, hc.once, hc.by_key, hc.pending_slot, hc.overtaken_once, hc.overtaken_slot,
      hc.somewhere⟩
  | some id =>
    simp only
    cases hl : h.pending.lookup id with
    | none =>
      exact ⟨hc.counts, hc.entered, hc.samples, hc.once, hc.by_key, hc.pending_slot, hc.overtaken_once, hc.overtaken_slot,
        hc.somewhere⟩
    | some slot =>
      have hcounts := hc.counts
      have hsamples := hc.samples
      obtain ⟨hget, hnot, hfree⟩ := hc.pending_slot id slot hl
      have hmem : id ∈ h.pending.keys := Finmap.mem_keys.2 (Finmap.mem_of_lookup_eq_some hl)
      have hpos : 0 < h.pending.keys.card := Finset.card_pos.2 ⟨id, hmem⟩
      have hmeasured : ∀ slot', slot' ∈ (h.measured ++ [(slot, ev)]).map Prod.fst ↔
          slot' ∈ h.measured.map Prod.fst ∨ slot' = slot := by
        intro slot'
        rw [List.map_append, List.mem_append]
        exact or_congr_right List.mem_singleton
      refine ⟨?_, hc.entered, ?_, ?_, ?_, ?_, hc.overtaken_once, fun slot' hin => ?_, fun slot' k hget' => ?_⟩
      · show (h.measured ++ [(slot, ev)]).length + (h.pending.erase id).keys.card + h.overtaken.length = h.keys.length
        rw [Finmap.keys_erase, Finset.card_erase_of_mem hmem, List.length_append, List.length_singleton]
        omega
      · show (if h.measured.length + 1 > config.warmup then h.samples + 1 else h.samples) =
          (h.measured ++ [(slot, ev)]).length - config.warmup
        rw [List.length_append, List.length_singleton]
        split
        · omega
        · omega
      · rw [List.map_append]
        refine List.nodup_append.2 ⟨hc.once, List.nodup_singleton _, ?_⟩
        rintro slot' hin _ hslot rfl
        rw [List.mem_singleton.1 hslot] at hin
        exact hnot hin
      · refine List.forall_mem_append.2 ⟨hc.by_key, List.forall_mem_singleton.2 ⟨id, hget, hid⟩⟩
      · intro k slot' hl'
        change (h.pending.erase id).lookup k = some slot' at hl'
        have hne : k ≠ id := by
          rintro rfl
          rw [Finmap.lookup_erase] at hl'
          cases hl'
        rw [Finmap.lookup_erase_ne hne] at hl'
        obtain ⟨hget', hnot', hfree'⟩ := hc.pending_slot k slot' hl'
        refine ⟨hget', fun hin => ?_, hfree'⟩
        rcases (hmeasured slot').1 hin with hin | rfl
        · exact hnot' hin
        · -- two keys are not entered in one slot
          rw [hget, Option.some.injEq] at hget'
          exact hne hget'.symm
      · obtain ⟨hnot', hlater⟩ := hc.overtaken_slot slot' hin
        refine ⟨fun hmeas => ?_, hlater⟩
        rcases (hmeasured slot').1 hmeas with hmeas | rfl
        · exact hnot' hmeas
        · exact hfree hin
      · show slot' ∈ (h.measured ++ [(slot, ev)]).map Prod.fst ∨ (h.pending.erase id).lookup k = some slot' ∨
          slot' ∈ h.overtaken
        rw [hmeasured]
        rcases hc.somewhere slot' k hget' with hin | hl' | hin
        · exact Or.inl (Or.inl hin)
        · by_cases heq : k = id
          · subst heq
            rw [hl, Option.some.injEq] at hl'
            exact Or.inl (Or.inr hl'.symm)
          · rw [Finmap.lookup_erase_ne heq]
            exact Or.inr (Or.inl hl')
        · exact Or.inr (Or.inr hin)

/-- **Every step keeps this.** -/
theorem Counted.step (hc : Counted config h) {act : HarnessAct} (hstep : Stepped config h act h') :
    Counted config h' := by
  cases hstep with
  | drew ready slot draws =>
    refine ⟨hc.counts, ?_, hc.samples, hc.once, hc.by_key, hc.pending_slot, hc.overtaken_once, hc.overtaken_slot,
      hc.somewhere⟩
    have hentered := hc.entered
    rw [ready] at hentered
    exact hentered
  | entered drawn => exact hc.enter drawn
  | wrote entered =>
    refine ⟨hc.counts, ?_, hc.samples, hc.once, hc.by_key, hc.pending_slot, hc.overtaken_once, hc.overtaken_slot,
      hc.somewhere⟩
    have hentered := hc.entered
    rw [entered] at hentered
    exact hentered
  | processed here takes =>
    exact ⟨hc.counts, hc.entered, hc.samples, hc.once, hc.by_key, hc.pending_slot, hc.overtaken_once, hc.overtaken_slot,
      hc.somewhere⟩
  | observed idle here =>
    exact ⟨hc.counts, hc.entered, hc.samples, hc.once, hc.by_key, hc.pending_slot, hc.overtaken_once, hc.overtaken_slot,
      hc.somewhere⟩
  | correlated here => exact hc.correlate _

/-- **Whole runs.** -/
theorem run_sound {mix : Mix} {seed : UInt64} (hburst : config.messages ≤ 84000000) {acts : List HarnessAct}
    {us : List Unit} (hrun : run (Harness.step config) (start mix seed) acts = .ok (h, us)) :
    (∃ n m, Sound config n m h) ∧ Counted config h := by
  refine run_inv (C := fun _ _ => True) (fun h => (∃ n m, Sound config n m h) ∧ Counted config h) ?_
    ⟨⟨0, 0, Sound.start config mix seed⟩, Counted.start config mix seed⟩
    (along_of_forall (Q := fun _ => True) fun _ _ => trivial) hrun
  rintro h act h' u ⟨⟨n, m, hs⟩, hc⟩ - hstep
  have hstepped := step_cases hstep
  exact ⟨hs.step hburst hstepped, hc.step hstepped⟩

/-- At rest nothing is pending. -/
theorem Sound.pending_empty (hs : Sound config n m h) (hrest : h.AtRest config) : h.pending = ∅ := by
  refine Finmap.ext_lookup fun k => ?_
  rw [Finmap.lookup_empty, Finmap.lookup_eq_none]
  intro hpend
  rcases hs.covered k hpend with ⟨c, hc, -⟩ | ⟨ev, hev, -⟩
  · rw [hrest.written, hrest.sender] at hc
    cases hc
  · rcases hev with hev | hev
    · rw [hrest.replies] at hev
      cases hev
    · rw [hrest.observed] at hev
      cases hev

end Harness

/-- **The harness accounts for every slot.** Over a burst of up to 84 million messages, in every interleaving of the
sender, the reader and the daemon: no step panics, every slot entered is measured, pending or overtaken, a slot is
measured once and by a reply with its key, so that the counts of the report do not underflow; a slot that is overtaken
was not measured, and a later one was entered under its key; the command entered under a pending key is the cancel of
that order, whose acceptance the reader has just shown to the workload; and when all is sent, processed and read
nothing is pending, and the slots not measured are those overtaken. -/
theorem harness_counts_every_slot (mix : Mix) (seed : UInt64) {config : RunConfig} (hburst : config.messages ≤ 84000000)
    {acts : List HarnessAct} {h : Harness} {us : List Unit}
    (hrun : run (Harness.step config) (Harness.start mix seed) acts = .ok (h, us)) :
    (∀ act p, h.step config act ≠ .error (.panicked p)) ∧
    h.measured.length + h.pending.keys.card + h.overtaken.length = h.keys.length ∧ h.keys.length ≤ config.messages ∧
    (h.measured.map Prod.fst).Nodup ∧
    (∀ x ∈ h.measured, ∃ k, h.keys[x.1]? = some k ∧ eventCorrelationId x.2 = some k) ∧
    h.overtaken.Nodup ∧
    (∀ slot ∈ h.overtaken, slot ∉ h.measured.map Prod.fst ∧
      ∃ k later, h.keys[slot]? = some k ∧ slot < later ∧ h.keys[later]? = some k) ∧
    (∀ P : Profile, P.Faithful →
      (h.report config).unmatched P = .ok (config.messages - h.measured.length) ∧
      (h.report config).histogramSamples P = .ok h.samples) ∧
    (∀ k c, h.sender = .drawn k c → k ∈ h.pending →
      c = .cancelOrder k.1 k.2 ∧ ∃ q, 0 < q ∧ h.observed = some (.accepted k.1 k.2 q)) ∧
    (h.AtRest config → h.pending = ∅ ∧ h.measured.length + h.overtaken.length = config.messages ∧
      ∀ slot < config.messages, slot ∉ h.measured.map Prod.fst ↔ slot ∈ h.overtaken) := by
  obtain ⟨⟨n, m, hs⟩, hc⟩ := Harness.run_sound hburst hrun
  have hcounts := hc.counts
  have hentered := hc.entered
  have hsamples := hc.samples
  have hle : h.keys.length ≤ config.messages := by
    have hslots := hs.slots_le
    have hheld : h.sender.heldEntered.length ≤ h.sender.held.length := by
      cases h.sender with
      | ready => exact le_refl _
      | drawn k c => exact Nat.zero_le _
      | entered c => exact le_refl _
    omega
  refine ⟨hs.no_panic hburst, hcounts, hle, hc.once, hc.by_key, hc.overtaken_once, hc.overtaken_slot,
    fun P hP => ⟨?_, ?_⟩, fun k c hdrawn hpend => ?_, fun hrest => ?_⟩
  · have hstore := hP.store64 (show config.messages - h.measured.length < 2 ^ 64 by omega)
    rw [Nat.cast_sub (by omega)] at hstore
    exact hstore
  · have hstore := hP.store64 (show h.measured.length - min config.warmup h.measured.length < 2 ^ 64 by omega)
    rw [Nat.cast_sub (Nat.min_le_right _ _)] at hstore
    refine hstore.trans (congrArg Except.ok ?_)
    rw [hsamples]
    omega
  · by_cases hcancel : ∃ a i, c = .cancelOrder a i
    · obtain ⟨a, i, rfl⟩ := hcancel
      have hself : some (a, i) = some k := hs.named k _ hdrawn
      obtain rfl := Option.some.inj hself
      refine ⟨rfl, hs.known_free _ ?_ hpend⟩
      unfold Harness.known
      rw [hdrawn]
      exact List.mem_append_right _ (List.mem_singleton_self _)
    · have hnew := (hs.latest k c hdrawn (fun a i hc => hcancel ⟨a, i, hc⟩)).2 k hpend
      exact absurd hnew (lt_irrefl _)
  · have hempty := hs.pending_empty hrest
    rw [hempty, Finmap.keys_empty, Finset.card_empty] at hcounts
    rw [hrest.sender, hrest.slot] at hentered
    change h.keys.length = config.messages at hentered
    refine ⟨hempty, by omega, fun slot hslot => ⟨fun hnot => ?_, fun hin => (hc.overtaken_slot slot hin).1⟩⟩
    rcases hc.somewhere slot _ (List.getElem?_eq_getElem (by omega)) with hin | hl | hin
    · exact absurd hin hnot
    · rw [hempty, Finmap.lookup_empty] at hl
      cases hl
    · exact hin

/-- An order and its cancel, which overtakes it: the reader has shown the acceptance to the workload, the cancel is
drawn and entered, and the acceptance is measured against the cancel's slot. -/
theorem harness_counts_every_slot_overtaken :
    ∃ h us, run (Harness.step ⟨2, 0⟩) (Harness.start ⟨0, 100, 0⟩ 1)
        [.draw, .enter, .write, .process, .observe, .draw, .enter, .correlate, .write, .process, .observe, .correlate] =
          .ok (h, us) ∧ h.AtRest ⟨2, 0⟩ ∧ h.overtaken = [0] ∧ h.pending = ∅ ∧
            h.measured.length + h.overtaken.length = 2 ∧
            ∀ slot < 2, slot ∉ h.measured.map Prod.fst ↔ slot ∈ h.overtaken := by
  obtain ⟨⟨h, us⟩, hrun, ⟨h1, h2, h3, h4, h5⟩, hovertaken⟩ := exists_ok_of_decide
    (x := run (Harness.step ⟨2, 0⟩) (Harness.start ⟨0, 100, 0⟩ 1)
      [.draw, .enter, .write, .process, .observe, .draw, .enter, .correlate, .write, .process, .observe, .correlate])
    (p := fun r => (r.1.sender = .ready ∧ r.1.slot = 2 ∧ r.1.written = [] ∧ r.1.replies = [] ∧ r.1.observed = none) ∧
      r.1.overtaken = [0]) (by decide +kernel)
  have hrest : h.AtRest ⟨2, 0⟩ := ⟨h1, h2, h3, h4, h5⟩
  obtain ⟨-, -, -, -, -, -, -, -, -, hend⟩ := harness_counts_every_slot ⟨0, 100, 0⟩ 1 (by decide) hrun
  exact ⟨h, us, hrun, hrest, hovertaken, hend hrest⟩

end MatchingEngine
