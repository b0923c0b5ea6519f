import MatchingEngine.Wire.RoundTrip
import MatchingEngine.Ref.Total
import MatchingEngine.Gateway.Routing
import MatchingEngine.Gateway.MatchingThread
import MatchingEngine.Main.Snapshot

/-!
# What is emitted fits the wire

Every number in an event is a `u64` or a `u128` of the source, and the encoder writes as many bytes
of it. In the model they are natural numbers, so this is a theorem: the release build's engine, on
fewer than `2 ^ 64` decoded commands, emits nothing that would not survive the encoder. Resting
orders carry the numbers of the commands that brought them, sums are stored in their words, and a
book holds at most one order for each command.

* `Ref.Typed`: the invariant; `Ref.Did.typed`: one command keeps it, `Ref.WF.apply_typed`: and emits
  events in range.
* `System.run_typed`, `Matching.run_typed`: whole runs.
-/

namespace MatchingEngine

/-- Market data carries no number of the engine. -/
theorem Event.isReport_of_isMarketData {ev : Event} (h : ev.isMarketData = true) : ev.isReport = false := by
  cases ev with
  | trade price qty takerSide => rfl
  | bookUpdate bestBid bestAsk => rfl
  | _ => cases h

/-- Every field in the range of its type. -/
def Order.Typed (o : Order) : Prop := o.account < 2 ^ 64 ∧ o.id < 2 ^ 64 ∧ o.price < 2 ^ 64 ∧ o.qty < 2 ^ 64

namespace Ref

/-- The resting orders and the last trade are in range, and there are at most `n` orders. -/
structure Typed (n : ℕ) (r : Ref) : Prop where
  orders : ∀ o ∈ r.orders, o.Typed
  lastTrade : ∀ p, r.lastTrade = some p → p < 2 ^ 64
  count : r.orders.length ≤ n

variable {r r' : Ref} {s : Side} {o : Order} {n a i p q : ℕ} {c : Command} {evs : List Event}

theorem Typed.new : Ref.new.Typed 0 :=
  ⟨by simp [Ref.new, Ref.orders], by simp [Ref.new], by simp [Ref.new, Ref.orders]⟩

theorem Typed.side (h : r.Typed n) (ho : o ∈ r.side s) : o.Typed := h.orders o (r.side_sub_orders s o ho)

theorem Typed.mono {m : ℕ} (h : r.Typed n) (hm : n ≤ m) : r.Typed m := ⟨h.orders, h.lastTrade, h.count.trans hm⟩

/-- A key and a price of a resting order are in range, and so is any quantity it held. -/
theorem typed_of_origin {o' : Order} (h : o.Typed) (hkey : o.key = o'.key) (hprice : o.price = o'.price)
    (hqty : o'.qty ≤ o.qty) : o'.Typed := by
  obtain ⟨ha, hi, hp, hq⟩ := h
  obtain ⟨hacc, hid⟩ : o.account = o'.account ∧ o.id = o'.id := Prod.mk.inj hkey
  exact ⟨hacc ▸ ha, hid ▸ hi, hprice ▸ hp, lt_of_le_of_lt hqty hq⟩

/-- **One command keeps the book in range**, with one order more at most. -/
theorem Did.typed (hd : Did r c r' evs) (h : r.WF) (hc : c.Decodable) (hr : r.Typed n) : r'.Typed (n + 1) := by
  refine ⟨fun o' ho' => ?_, fun p hp => ?_, ?_⟩
  · obtain ⟨s, ho'⟩ := (r'.mem_orders o').1 ho'
    rcases hd.origin h ho' with ⟨x, hx, hkey, hprice, hqty⟩ | hb
    · exact typed_of_origin (hr.side hx) hkey hprice hqty
    · cases c with
      | newOrder a i s p q k t ts =>
        obtain ⟨ha, hi, hp, hq, -⟩ := hc
        obtain ⟨-, -, -, hkey, hprice, hqty⟩ := hb
        exact typed_of_origin (o := ⟨a, i, p, q⟩) ⟨ha, hi, hp, hq⟩ hkey.symm hprice.symm hqty
      | cancelReplace a i p q =>
        obtain ⟨ha, hi, hp, hq, -⟩ := hc
        obtain ⟨-, hkey, hprice, hqty⟩ := hb
        exact typed_of_origin (o := ⟨a, i, p, q⟩) ⟨ha, hi, hp, hq⟩ hkey.symm hprice.symm hqty
      | _ => exact hb.elim
  · rcases hd.lastTrade h with hl | ⟨o, ho, hl⟩
    · exact hr.lastTrade p (hl.symm.trans hp)
    · rw [← Option.some.inj (hl.symm.trans hp)]
      exact (hr.orders o ho).2.2.1
  · have hone := hd.length h
    have hcount := hr.count
    omega

/-! ### The events of a command -/

theorem fillEvents_typed (ha : a < 2 ^ 64) (hi : i < 2 ^ 64) (ho : o.Typed) {q remaining : ℕ} (hq : q ≤ o.qty)
    (hrem : remaining < 2 ^ 64) : ∀ ev ∈ fillEvents a i s o q remaining, ev.Typed := by
  obtain ⟨hacc, hid, hprice, hqty⟩ := ho
  have hfilled : q < 2 ^ 64 := lt_of_le_of_lt hq hqty
  have hleft : o.qty - q < 2 ^ 64 := lt_of_le_of_lt (Nat.sub_le _ _) hqty
  intro ev hev
  simp only [fillEvents, List.mem_cons, List.not_mem_nil, or_false] at hev
  rcases hev with rfl | rfl | rfl
  · exact ⟨ha, hi, hprice, hfilled, hrem⟩
  · exact ⟨hacc, hid, hprice, hfilled, hleft⟩
  · exact ⟨hprice, hfilled⟩

/-- **What a sweep emits is in range.** -/
theorem WF.sweep_typed (h : r.WF) (hr : ∀ o ∈ r.orders, o.Typed) (ha : a < 2 ^ 64) (hi : i < 2 ^ 64) (hq : q < 2 ^ 64)
    (s : Side) (limit : ℕ) : ∀ ev ∈ (r.sweep a i s limit q).2.2, ev.Typed := by
  -- along the sweep: each order met is one that rested at the start
  refine h.sweep_induct (motive := fun r q res => (∀ o ∈ r.orders, o.Typed) → q < 2 ^ 64 → ∀ ev ∈ res.2.2, ev.Typed)
    a i s limit ?_ ?_ ?_ ?_ q hr hq
  · intro r q _ _ _ _ ev hev
    exact absurd hev List.not_mem_nil
  · intro r q o l r' q' evs _ hc _ _ _ ih hr hq
    obtain ⟨hacc, hid, -⟩ := hr o (r.side_sub_orders _ o (mem_of_cons hc))
    refine List.forall_mem_cons.2 ⟨⟨hacc, hid⟩, ih (fun x hx => ?_) hq⟩
    exact hr x ((r.remove_orders_sublist _ _).subset hx)
  · intro r q o l r' q' evs _ hc _ _ _ _ ih hr hq
    have ho := hr o (r.side_sub_orders _ o (mem_of_cons hc))
    have hleft : q - o.qty < 2 ^ 64 := lt_of_le_of_lt (Nat.sub_le _ _) hq
    refine List.forall_mem_append.2 ⟨fillEvents_typed ha hi ho (le_refl _) hleft, ih (fun x hx => ?_) hleft⟩
    exact hr x ((r.remove_orders_sublist _ _).subset hx)
  · intro r q o l _ hc _ _ _ hlt hr hq
    have ho := hr o (r.side_sub_orders _ o (mem_of_cons hc))
    exact fillEvents_typed ha hi ho (Nat.le_of_lt hlt) (by omega)

theorem ownPrefix_typed (hr : r.Typed n) (s : Side) :
    ∀ ev ∈ (r.ownPrefix a s p).map (fun o => Event.cancelled o.account o.id), ev.Typed := by
  rw [List.forall_mem_map]
  intro o ho
  have hcross : o ∈ r.crossing s p := (List.takeWhile_sublist _).subset ho
  have hside : o ∈ r.side s.opposite := (List.takeWhile_sublist _).subset hcross
  obtain ⟨hacc, hid, -⟩ := hr.side hside
  exact ⟨hacc, hid⟩

/-- What names the command's own order is in range. -/
theorem selfId_typed (hc : c.Decodable) (hself : commandSelfId c = some (a, i)) : a < 2 ^ 64 ∧ i < 2 ^ 64 := by
  cases c with
  | newOrder a' i' s p q k t ts =>
    cases hself
    exact ⟨hc.1, hc.2.1⟩
  | cancelOrder a' i' =>
    cases hself
    exact hc
  | cancelReplace a' i' p q =>
    cases hself
    exact ⟨hc.1, hc.2.1⟩
  | _ => cases hself

/-- **What a command emits is in range**, the two that change nothing apart. -/
theorem Did.events_typed (hd : Did r c r' evs) (h : r.WF) (hans : Answers c evs) (hc : c.Decodable) (hr : r.Typed n)
    (hsnap : c ≠ .snapshot) (hkill : ∀ engaged, c ≠ .killSwitch engaged) : ∀ ev ∈ evs, ev.Typed := by
  cases hd with
  | idle quiet told =>
    rcases told with ⟨a, i, reason, rfl⟩ | rfl | ⟨engaged, rfl⟩
    · have hself : some (a, i) = commandSelfId c := hans _ (List.mem_singleton_self _) rfl
      rw [List.forall_mem_singleton]
      exact selfId_typed hc hself.symm
    · exact absurd rfl hsnap
    · exact absurd rfl (hkill engaged)
  | @entered a i s p q k t ts limit rests fresh own bound drops =>
    obtain ⟨ha, hi, -, hq, -⟩ := hc
    rw [List.forall_mem_append, List.forall_mem_singleton]
    refine ⟨h.sweep_typed hr.orders ha hi hq s limit, ha, hi, ?_⟩
    split
    · exact lt_of_le_of_lt h.sweep_le hq
    · exact Nat.two_pow_pos 64
  | @posted a i s p q ts fresh clear =>
    obtain ⟨ha, hi, -, hq, -⟩ := hc
    rw [List.forall_mem_append, List.forall_mem_singleton]
    exact ⟨ownPrefix_typed hr s, ha, hi, hq⟩
  | @refused a i s p q ts fresh =>
    obtain ⟨ha, hi, -⟩ := hc
    rw [List.forall_mem_append, List.forall_mem_singleton]
    exact ⟨ownPrefix_typed hr s, ha, hi⟩
  | @amended a i q s o found pos le =>
    obtain ⟨ha, hi, -, hq, -⟩ := hc
    rw [List.forall_mem_singleton]
    exact ⟨ha, hi, hq⟩
  | @requeued a i p q s o found pos changes =>
    obtain ⟨ha, hi, -, hq, -⟩ := hc
    have hout := h.remove (find_some found).1
    refine List.forall_mem_cons.2 ⟨⟨ha, hi, hq⟩, hout.sweep_typed (fun x hx => ?_) ha hi hq s p⟩
    exact hr.orders x ((r.remove_orders_sublist _ _).subset hx)
  | cancelled found =>
    rw [List.forall_mem_singleton]
    exact hc
  | @emptied a =>
    unfold massCancel
    rw [List.forall_mem_map]
    intro id hid
    obtain ⟨o, ho, hkey⟩ := (h.slots_mem a id).1 hid
    obtain ⟨rfl, rfl⟩ : o.account = a ∧ o.id = id := Prod.mk.inj hkey
    obtain ⟨hacc, hid, -⟩ := hr.orders o ho
    exact ⟨hacc, hid⟩

/-! ### The sums published -/

theorem stored_release64 (x : ℕ) : stored Profile.release.u64 x < 2 ^ 64 := by
  have hval : Profile.release.u64.val x = some (x % 2 ^ 64) := Word.wrapping_val 64 x
  unfold stored
  rw [hval]
  exact Nat.mod_lt _ (Nat.two_pow_pos 64)

theorem stored_release128 (x : ℕ) : stored Profile.release.u128 x < 2 ^ 128 := by
  have hval : Profile.release.u128.val x = some (x % 2 ^ 128) := Word.wrapping_val 128 x
  unfold stored
  rw [hval]
  exact Nat.mod_lt _ (Nat.two_pow_pos 128)

theorem Typed.touch (hr : r.Typed n) (s : Side) : Event.TouchTyped (touch .release (r.side s)) := by
  intro x hx
  obtain ⟨o, ho, rfl⟩ := Option.map_eq_some_iff.1 hx
  have hmem : o ∈ r.side s := List.mem_of_mem_head? ho
  exact ⟨(hr.side hmem).2.2.1, stored_release64 _⟩

/-- A side has at most as many prices as orders. -/
theorem prices_length (r : Ref) (s : Side) : (r.prices s).length ≤ (r.side s).length := by
  have hsub : ∀ l : List Order, (l.map Order.price).dedup.length ≤ l.length := by
    intro l
    calc (l.map Order.price).dedup.length ≤ (l.map Order.price).length := (List.dedup_sublist _).length_le
      _ = l.length := List.length_map _
  cases s with
  | buy =>
    unfold prices
    rw [List.length_reverse]
    exact hsub r.bids
  | sell => exact hsub r.asks

theorem snapshotAccounts_length (r : Ref) : r.snapshotAccounts.length ≤ r.orders.length := by
  have hsub : r.snapshotAccounts ⊆ r.orders.map Order.account := by
    intro a ha
    obtain ⟨o, ho, rfl⟩ := mem_snapshotAccounts.1 ha
    exact List.mem_map_of_mem ho
  have hle := (firstSeen_nodup List.nodup_nil).subperm hsub |>.length_le
  rwa [List.length_map] at hle

/-- **What a snapshot emits is in range.** -/
theorem WF.snapshot_typed (h : r.WF) (hr : r.Typed n) (hn : n < 2 ^ 64) : ∀ ev ∈ r.snapshot .release, ev.Typed := by
  have hcount : r.orders.length < 2 ^ 64 := lt_of_le_of_lt hr.count hn
  have hside : ∀ s, (r.side s).length ≤ r.orders.length := by
    intro s
    unfold Ref.orders
    rw [List.length_append]
    cases s with
    | buy => exact Nat.le_add_right _ _
    | sell => exact Nat.le_add_left _ _
  have hlevels : ∀ s, ∀ ev ∈ r.snapshotLevels .release s, ev.Typed := by
    intro s
    unfold snapshotLevels
    rw [List.forall_mem_map]
    intro p hp
    obtain ⟨o, ho, rfl⟩ := mem_prices.1 hp
    refine ⟨(hr.side ho).2.2.1, stored_release64 _, lt_of_le_of_lt ?_ hcount⟩
    exact (List.length_filter_le _ _).trans (hside s)
  have haccounts : ∀ ev ∈ r.snapshotAccounts.map (fun a => Event.snapshotAccount a (r.slots a).length
      (stored Profile.release.u128 (r.notional a))), ev.Typed := by
    rw [List.forall_mem_map]
    intro a ha
    obtain ⟨o, ho, rfl⟩ := mem_snapshotAccounts.1 ha
    refine ⟨(hr.orders o ho).1, lt_of_le_of_lt ?_ hcount, stored_release128 _⟩
    rw [h.slots_length]
    exact List.length_filter_le _ _
  have hprices : (r.prices .buy).length + (r.prices .sell).length ≤ r.orders.length := by
    have hbuy := r.prices_length .buy
    have hsell := r.prices_length .sell
    have hall : r.orders.length = (r.side .buy).length + (r.side .sell).length := List.length_append
    omega
  have hsummary : (Event.snapshotSummary (r.topOfBook .release).1 (r.topOfBook .release).2 r.lastTrade
      ((r.prices .buy).length + (r.prices .sell).length) r.snapshotAccounts.length).Typed := by
    refine ⟨hr.touch .buy, hr.touch .sell, hr.lastTrade, lt_of_le_of_lt hprices hcount, ?_⟩
    exact lt_of_le_of_lt r.snapshotAccounts_length hcount
  unfold snapshot
  dsimp only
  rw [List.forall_mem_append, List.forall_mem_append, List.forall_mem_append, List.forall_mem_singleton]
  exact ⟨⟨⟨hlevels .buy, hlevels .sell⟩, haccounts⟩, hsummary⟩

/-- **What a command emits is in range**, the top of book included. -/
theorem WF.apply_typed (h : r.WF) (hr : r.Typed n) (hn : n < 2 ^ 64) (hc : c.Decodable) :
    ∀ ev ∈ (r.apply .release c).2, ev.Typed := by
  have hdispatch : ∀ ev ∈ (r.dispatch .release c).2, ev.Typed := by
    by_cases hsnap : c = .snapshot
    · subst hsnap
      exact h.snapshot_typed hr hn
    · by_cases hkill : ∃ engaged, c = .killSwitch engaged
      · obtain ⟨engaged, rfl⟩ := hkill
        exact List.forall_mem_nil _
      · exact (r.did .release c).events_typed h (h.dispatch_answers .release c) hc hr hsnap fun e he => hkill ⟨e, he⟩
  have hafter := (r.did .release c).typed h hc hr
  unfold apply
  dsimp only
  split
  · rw [List.forall_mem_append, List.forall_mem_singleton]
    exact ⟨hdispatch, hafter.touch .buy, hafter.touch .sell⟩
  · exact hdispatch

end Ref

namespace System

variable {s s' : System} {r : Ref} {n : ℕ}

/-- One command: what it emits is in range, and the book stays so. -/
theorem processCommand_typed (hs : Sim .release ⊤ s.engine.book r) (hr : r.Typed n) (hn : n < 2 ^ 64) {cmd : Command}
    (hc : cmd.Decodable) {evs : List (ℕ × Event)} (h : s.processCommand .release cmd = .ok (s', evs)) :
    (∀ x ∈ evs, x.2.Typed) ∧ ∃ r', Sim .release ⊤ s'.engine.book r' ∧ r'.Typed (n + 1) := by
  rcases processCommand_gate h with ⟨ev, hg, he, rfl⟩ | ⟨-, evs', ha, rfl⟩
  · obtain ⟨a, i, reason, rfl, hself⟩ := RiskState.preApplyCheck_answers hg
    refine ⟨List.forall_mem_singleton.2 (Ref.selfId_typed hc hself), r, he ▸ hs, hr.mono (Nat.le_succ n)⟩
  · obtain ⟨rfl, hs'⟩ := hs.applied Profile.release_total hc ha
    refine ⟨List.forall_mem_map.2 (hs.wf.apply_typed hr hn hc), _, hs', ?_⟩
    exact (r.did .release cmd).typed hs.wf hc hr

/-- **What a run emits is in range**, if its commands are decoded and fewer than `2 ^ 64`. -/
theorem run_typed (hs : Sim .release ⊤ s.engine.book r) (hr : r.Typed n) {cmds : List Command}
    (hcmds : ∀ c ∈ cmds, c.Decodable) (hn : n + cmds.length ≤ 2 ^ 64) {evss : List (List (ℕ × Event))}
    (hrun : s.runFrom .release cmds = .ok (s', evss)) : ∀ x ∈ evss.flatten, x.2.Typed := by
  induction cmds generalizing s r n evss with
  | nil =>
    cases hrun
    exact List.forall_mem_nil _
  | cons c cmds ih =>
    rw [List.length_cons] at hn
    obtain ⟨hc, hcmds⟩ := List.forall_mem_cons.1 hcmds
    obtain ⟨s₁, evs, evss', h1, h2, rfl⟩ := run_cons_inv hrun
    obtain ⟨hevs, r₁, hs₁, hr₁⟩ := processCommand_typed hs hr (by omega) hc h1
    rw [List.flatten_cons, List.forall_mem_append]
    exact ⟨hevs, ih hs₁ hr₁ hcmds (by omega) h2⟩

theorem run_new_typed {config : RiskConfig} {cmds : List Command} (hcmds : ∀ c ∈ cmds, c.Decodable)
    (hfew : cmds.length < 2 ^ 64) {evss : List (List (ℕ × Event))}
    (hrun : (System.new config).runFrom .release cmds = .ok (s', evss)) : ∀ x ∈ evss.flatten, x.2.Typed :=
  run_typed (Sim.new .release ⊤) Ref.Typed.new hcmds (by omega) hrun

end System

/-- **What the matching thread sends is in range**, and so are its numbers. -/
theorem Matching.run_typed {config : RiskConfig} {recorder : Option (List UInt8)} {inputs : List (ConnId × Command)}
    (hin : ∀ x ∈ inputs, x.2.Decodable) (hfew : inputs.length < 2 ^ 64) {t : Matching} {outs : List Dispatched}
    (hrun : run (Matching.step .release) (.new config recorder) inputs = .ok (t, outs)) :
    (∀ x ∈ MatchingThread.returned outs, x.2.1 < 2 ^ 64 ∧ x.2.2.Typed) ∧
      ∀ ev ∈ MatchingThread.offered outs, ev.isMarketData = true ∧ ev.Typed := by
  obtain ⟨evss, hsys, hret, hmd⟩ := MatchingThread.run_system hrun
  have htyped := System.run_new_typed (List.forall_mem_map.2 hin) (by rwa [List.length_map]) hsys
  refine ⟨fun x hx => ⟨?_, ?_⟩, fun ev hev => ?_⟩
  · -- the number is the place of the command in the run
    obtain ⟨out, hout, hx⟩ := List.mem_flatMap.1 hx
    obtain ⟨j, hj⟩ := List.mem_iff_getElem?.1 hout
    obtain ⟨hlt, -⟩ := List.getElem?_eq_some_iff.1 hj
    have hnum : x.2.1 = 0 + j + 1 := MatchingThread.run_numbers hrun hj x hx
    rw [run_length hrun] at hlt
    omega
  · have hmem : x.2 ∈ evss.flatten.filter (fun e => !e.2.isMarketData) := hret ▸ List.mem_map_of_mem hx
    exact htyped x.2 (List.mem_of_mem_filter hmem)
  · rw [hmd] at hev
    obtain ⟨x, hx, rfl⟩ := List.mem_map.1 hev
    obtain ⟨hx, hmarket⟩ := List.mem_filter.1 hx
    exact ⟨hmarket, htyped x hx⟩

end MatchingEngine
