import MatchingEngine.Main.BandEdge
import MatchingEngine.Bench.Harness

/-!
# The burst workload meets the gate

`risk-bench.toml` raises the limits for the benchmark and leaves the price band: prices of the workload lie so
close to each other that the band never turns one away, and a burst is too short to reach the limits. So what
the benchmark measures is matching, not rejects.

* `Ref.Quoted`: what rests after `n` orders of the workload.
* `Sim.gate_limit`, `Sim.gate_market`: what the gate says to the next one.
* `burst_never_risk_rejected`: a burst is refused nothing but cancels of orders that are gone and market orders
  that find nothing to price themselves by.
-/

namespace MatchingEngine

/-- A price between the outer levels of the workload. -/
def Quote (p : ℕ) : Prop := 9950 ≤ p ∧ p ≤ 10050

/-- Two such prices are within ten percent of each other. -/
theorem Quote.inBand {p reference : ℕ} (hp : Quote p) (href : Quote reference) : InBand 10 reference p := by
  obtain ⟨hlow, hhigh⟩ := hp
  obtain ⟨hlow', hhigh'⟩ := href
  unfold InBand
  omega

/-- An order of the workload, among the first `n`. -/
structure Order.Quoted (n : ℕ) (o : Order) : Prop where
  id_pos : 0 < o.id
  id_le : o.id ≤ n
  account : o.account = (o.id - 1) % 256 + 1
  price : Quote o.price
  qty : o.qty ≤ 300

/-- What rests after `n` orders of the workload. -/
structure Ref.Quoted (n : ℕ) (r : Ref) : Prop where
  orders : ∀ o ∈ r.orders, o.Quoted n
  lastTrade : ∀ p, r.lastTrade = some p → Quote p

namespace Ref

variable {r r' : Ref} {c : Command} {evs : List Event} {n m : ℕ}

theorem Quoted.new : Ref.new.Quoted 0 := ⟨by simp [Ref.new, Ref.orders], by simp [Ref.new]⟩

theorem Quoted.mono (hr : r.Quoted n) (hnm : n ≤ m) : r.Quoted m := by
  refine ⟨fun o ho => ?_, hr.lastTrade⟩
  have hq := hr.orders o ho
  exact ⟨hq.id_pos, hq.id_le.trans hnm, hq.account, hq.price, hq.qty⟩

/-- **A command keeps this**, if what it brings is an order of the workload. -/
theorem Did.quoted (hd : Did r c r' evs) (h : r.WF) (hr : r.Quoted n) (hb : ∀ o, r.Brings c o → o.Quoted n) :
    r'.Quoted n := by
  constructor
  · intro o ho
    obtain ⟨s, ho⟩ := (r'.mem_orders o).1 ho
    rcases hd.origin h ho with ⟨x, hx, hkey, hprice, hqty⟩ | hbrings
    · have hq := hr.orders x (r.side_sub_orders s x hx)
      obtain ⟨hacc, hid⟩ : x.account = o.account ∧ x.id = o.id := Prod.mk.inj hkey
      refine ⟨hid ▸ hq.id_pos, hid ▸ hq.id_le, ?_, hprice ▸ hq.price, hqty.trans hq.qty⟩
      rw [← hacc, ← hid]
      exact hq.account
    · exact hb o hbrings
  · intro p hp
    rcases hd.lastTrade h with hl | ⟨o, ho, hl⟩
    · exact hr.lastTrade p (hl.symm.trans hp)
    · rw [← Option.some.inj (hl.symm.trans hp)]
      exact (hr.orders o ho).price

/-- What the next order of the workload may leave in the book. -/
theorem brings_quoted (hc : Workload.SendsOrder n c) {o : Order} (hb : r.Brings c o) : o.Quoted (n + 1) := by
  cases hc with
  | limit hlow hhigh hpos hqty =>
    obtain ⟨-, -, -, hkey, hprice, hle⟩ := hb
    obtain ⟨hacc, hid⟩ : o.account = n % 256 + 1 ∧ o.id = n + 1 := Prod.mk.inj hkey
    refine ⟨by omega, by omega, ?_, hprice ▸ ⟨hlow, hhigh⟩, hle.trans hqty⟩
    rw [hacc, hid, Nat.add_sub_cancel]
  | market =>
    obtain ⟨hlimit, -⟩ := hb
    cases hlimit

/-- The next order's key is free. -/
theorem Quoted.fresh (hr : r.Quoted n) (a : ℕ) : r.find (a, n + 1) = none := by
  rw [find_eq_none]
  intro o ho hkey
  have hid : o.id = n + 1 := (Prod.mk.inj hkey).2
  have hle := (hr.orders o ho).id_le
  omega

/-- **An account has its share of the orders**: one of every 256. -/
theorem Quoted.slots_length (hr : r.Quoted n) (h : r.WF) (a : ℕ) : (r.slots a).length ≤ n / 256 + 1 := by
  have hid : ∀ i ∈ r.slots a, 0 < i ∧ i ≤ n ∧ a = (i - 1) % 256 + 1 := by
    intro i hi
    obtain ⟨o, ho, hkey⟩ := (h.slots_mem a i).1 hi
    obtain ⟨rfl, rfl⟩ : o.account = a ∧ o.id = i := Prod.mk.inj hkey
    have hq := hr.orders o ho
    exact ⟨hq.id_pos, hq.id_le, hq.account⟩
  -- its orders differ in the round they were sent in
  have hnd : ((r.slots a).map (fun i => (i - 1) / 256)).Nodup := by
    refine List.Nodup.map_on ?_ (h.slots_nodup a)
    intro i hi j hj heq
    obtain ⟨hi0, -, hia⟩ := hid i hi
    obtain ⟨hj0, -, hja⟩ := hid j hj
    omega
  have hsub : (r.slots a).map (fun i => (i - 1) / 256) ⊆ List.range (n / 256 + 1) := by
    intro x hx
    obtain ⟨i, hi, rfl⟩ := List.mem_map.1 hx
    obtain ⟨hi0, hin, -⟩ := hid i hi
    rw [List.mem_range]
    have hdiv : (i - 1) / 256 ≤ n / 256 := Nat.div_le_div_right (by omega)
    omega
  have hlen := (hnd.subperm hsub).length_le
  rwa [List.length_map, List.length_range] at hlen

/-- So its notional is bounded too. -/
theorem Quoted.notional_le (hr : r.Quoted n) (h : r.WF) (a : ℕ) : r.notional a ≤ (n / 256 + 1) * 3015000 := by
  have hlen := hr.slots_length h a
  rw [h.slots_length] at hlen
  have hsum : r.notional a ≤ (r.orders.filter (fun o => o.account = a)).length * 3015000 := by
    have hle : ∀ x ∈ (r.orders.filter (fun o => o.account = a)).map (fun o => o.price * o.qty), x ≤ 3015000 := by
      intro x hx
      obtain ⟨o, ho, rfl⟩ := List.mem_map.1 hx
      have hq := hr.orders o (List.mem_filter.1 ho).1
      exact Nat.mul_le_mul hq.price.2 hq.qty
    have hbound := List.sum_le_card_nsmul _ _ hle
    rwa [List.length_map, smul_eq_mul] at hbound
  exact hsum.trans (Nat.mul_le_mul_right _ hlen)

/-- A price the book shows is one of the workload's. -/
theorem Quoted.head (hr : r.Quoted n) (s : Side) {p : ℕ} (hp : (r.side s).head?.map Order.price = some p) :
    Quote p := by
  obtain ⟨o, ho, rfl⟩ := Option.map_eq_some_iff.1 hp
  exact (hr.orders o (r.side_sub_orders s o (List.mem_of_head? ho))).price

end Ref

section Gate

variable {N : ℕ∞} {b : Book} {r : Ref} {n : ℕ}

/-- A limit price of the workload is in the band around whatever the reference is. -/
theorem Sim.reference_quote (h : Sim .release N b r) (hr : r.Quoted n) {reference : ℕ}
    (href : RiskState.priceBandReference .release b = .ok (some reference)) : Quote reference := by
  unfold RiskState.priceBandReference at href
  split at href
  · next last hl =>
    rw [h.lastTrade] at hl
    have heq : last = reference := Option.some.inj (Except.ok.inj href)
    exact heq ▸ hr.lastTrade last hl
  · split at href
    · next bid ask hbid hask =>
      rw [h.bestBid] at hbid
      rw [h.bestAsk] at hask
      have hb : Quote bid := hr.head .buy hbid
      have ha : Quote ask := hr.head .sell hask
      obtain ⟨hb1, hb2⟩ := hb
      obtain ⟨ha1, ha2⟩ := ha
      have hstore : Profile.release.store64 ((bid : ℤ) + ask) = .ok (bid + ask) := by
        have := Profile.release_faithful.store64 (show bid + ask < 2 ^ 64 by omega)
        rwa [Nat.cast_add] at this
      rw [bind_of_ok hstore] at href
      have heq : (bid + ask) / 2 = reference := Option.some.inj (Except.ok.inj href)
      constructor
      · omega
      · omega
    · cases href

/-- A market order prices itself by the last trade or the side it sweeps. -/
theorem Sim.marketReference_quote (h : Sim .release N b r) (hr : r.Quoted n) {side : Side} {p : ℕ}
    (hp : RiskState.marketReferencePrice side b = some p) : Quote p := by
  unfold RiskState.marketReferencePrice at hp
  split at hp
  · next last hl =>
    rw [h.lastTrade] at hl
    exact Option.some.inj hp ▸ hr.lastTrade last hl
  · cases side with
    | buy =>
      simp only [h.bestAsk] at hp
      exact hr.head .sell hp
    | sell =>
      simp only [h.bestBid] at hp
      exact hr.head .buy hp

/-- The sum of a notional and an order of the workload, and the cap. -/
theorem Sim.notional_within (h : Sim .release N b r) (hr : r.Quoted n) (hn : n ≤ 84000000) (a : ℕ) {p q : ℕ}
    (hp : p ≤ 10050) (hq : q ≤ 300) :
    ∃ total, Profile.release.store128 ((b.accountNotional a : ℤ) + (p * q : ℕ)) = .ok total ∧
      total ≤ RiskConfig.bench.maxNotional := by
  have hnotional := hr.notional_le h.wf a
  have hrounds : n / 256 + 1 ≤ 328126 := by omega
  have hcap : r.notional a ≤ 328126 * 3015000 := hnotional.trans (Nat.mul_le_mul_right _ hrounds)
  have hmul : p * q ≤ 10050 * 300 := Nat.mul_le_mul hp hq
  have hexact : b.accountNotional a = r.notional a := h.accountNotional Profile.release_faithful (by omega)
  refine ⟨r.notional a + p * q, ?_, ?_⟩
  · rw [hexact, ← Nat.cast_add]
    exact Profile.release_faithful.store128 (by omega)
  · show r.notional a + p * q ≤ 1000000000000
    omega

/-- **The gate passes every limit order of the workload.** -/
theorem Sim.gate_limit (h : Sim .release N b r) (hr : r.Quoted n) (hn : n ≤ 84000000) (a i : ℕ) (side : Side) {p q : ℕ}
    (hp : Quote p) (hq : q ≤ 300) :
    RiskState.newOrderCheck .release .bench a i side p q .limit .gtc b = .ok none := by
  have hopen : b.accountOpenOrderCount a < RiskConfig.bench.maxOpenOrders := by
    rw [h.openOrderCount]
    have hlen := hr.slots_length h.wf a
    show (r.slots a).length < 1000000
    omega
  obtain ⟨total, htotal, hcap⟩ := h.notional_within hr hn a hp.2 hq
  obtain ⟨reference, href⟩ := RiskState.priceBandReference_release b
  cases reference with
  | some reference =>
    have hquote := h.reference_quote hr href
    have hrange : reference < 2 ^ 64 := by
      have := hquote.2
      omega
    have hband : RiskState.withinBand .release RiskConfig.bench.priceBandPct reference p = .ok true := by
      rw [RiskState.withinBand_eq Profile.release_faithful (by decide) hrange]
      exact congrArg Except.ok (decide_eq_true (hp.inBand hquote))
    exact RiskState.newOrderCheck_banded (fun _ => hopen) htotal hcap href hband
  | none =>
    unfold RiskState.newOrderCheck
    simp only [decide_true, Bool.true_and, Bool.true_or, decide_eq_true_eq, if_neg (show ¬ b.accountOpenOrderCount a ≥ _
      from Nat.not_le.2 hopen), htotal, if_neg (Nat.not_lt.2 hcap), href, bind, Except.bind, pure, Except.pure]

/-- **A market order passes too**, or has nothing to price itself by. -/
theorem Sim.gate_market (h : Sim .release N b r) (hr : r.Quoted n) (hn : n ≤ 84000000) (a i : ℕ) (side : Side) :
    RiskState.newOrderCheck .release .bench a i side 0 300 .market .ioc b = .ok none ∨
      RiskState.newOrderCheck .release .bench a i side 0 300 .market .ioc b =
        .ok (some (.rejected a i .notFullyFillable)) := by
  unfold RiskState.newOrderCheck
  simp only [reduceCtorEq, decide_false, Bool.false_and, Bool.false_eq_true, if_false]
  cases href : RiskState.marketReferencePrice side b with
  | none => exact Or.inr rfl
  | some p =>
    obtain ⟨total, htotal, hcap⟩ := h.notional_within hr hn a (h.marketReference_quote hr href).2 (le_refl 300)
    left
    simp only [htotal, if_neg (Nat.not_lt.2 hcap), bind, Except.bind, pure, Except.pure]

end Gate

/-- What a command of the workload may be refused for. -/
def Command.RefusedFor (reason : RejectReason) : Command → Prop
  | .cancelOrder _ _ => reason = .unknownOrderId
  | .newOrder _ _ _ _ _ .market _ _ => reason = .notFullyFillable
  | _ => False

/-- The events turn the command away for no other reason. -/
def Served (c : Command) (evs : List Event) : Prop := ∀ a i reason, .rejected a i reason ∈ evs → c.RefusedFor reason

namespace Ref

variable {r : Ref} {c : Command} {n : ℕ}

theorem served_entered {evs : List Event} {a i q : ℕ} (h : ∀ ev ∈ evs, ev.isAnswer = false) :
    Served c (evs ++ [.accepted a i q]) := by
  intro a' i' reason hmem
  rcases List.mem_append.1 hmem with hmem | hmem
  · have hanswer : true = false := h _ hmem
    cases hanswer
  · cases List.mem_singleton.1 hmem

/-- The top-of-book update is no reject. -/
theorem Served.apply {P : Profile} (h : Served c (r.dispatch P c).2) : Served c (r.apply P c).2 := by
  intro a i reason hmem
  rcases r.apply_emits P c with he | ⟨bid, ask, he⟩
  · exact h a i reason (he ▸ hmem)
  · rw [he] at hmem
    rcases List.mem_append.1 hmem with hmem | hmem
    · exact h a i reason hmem
    · cases List.mem_singleton.1 hmem

/-- **The book refuses no order of the workload.** -/
theorem Quoted.served_order (hr : r.Quoted n) (h : r.WF) (P : Profile) (hc : Workload.SendsOrder n c) :
    Served c (r.apply P c).2 := by
  apply Served.apply
  cases hc with
  | @limit side price qty hlow hhigh hpos hqty =>
    show Served _ (r.submitGtc (n % 256 + 1) (n + 1) side price qty).2
    unfold submitGtc unlessDuplicate
    rw [hr.fresh]
    exact served_entered (h.sweep_noAnswer _ _ _ _ _)
  | @market side =>
    show Served _ (r.submitIoc (n % 256 + 1) (n + 1) side _ 300).2
    unfold submitIoc unlessDuplicate
    rw [hr.fresh]
    exact served_entered (h.sweep_noAnswer _ _ _ _ _)

theorem served_cancel (r : Ref) (P : Profile) (a i : ℕ) :
    Served (.cancelOrder a i) (r.apply P (.cancelOrder a i)).2 := by
  apply Served.apply
  intro a' i' reason hmem
  have hmem : .rejected a' i' reason ∈ (r.cancel a i).2 := hmem
  unfold cancel at hmem
  cases hf : r.find (a, i) with
  | none =>
    rw [hf] at hmem
    cases List.mem_singleton.1 hmem
    rfl
  | some e =>
    rw [hf] at hmem
    cases List.mem_singleton.1 hmem

end Ref

namespace System

variable {s : System} {c : Command} {n m : ℕ}

/-- The matching thread after `n` orders of the workload. -/
structure Bursting (n : ℕ) (s : System) : Prop where
  risk : s.risk = .new .bench
  book : ∃ r, Sim .release ⊤ s.engine.book r ∧ r.Quoted n

theorem Bursting.new : (System.new .bench).Bursting 0 := ⟨rfl, Ref.new, Sim.new .release ⊤, Ref.Quoted.new⟩

/-- A command is processed, and turned away for no other reason. -/
def Serves (s : System) (c : Command) (m : ℕ) : Prop :=
  ∃ s' evs, s.processCommand .release c = .ok (s', evs) ∧ Served c (evs.map Prod.snd) ∧ s'.Bursting m

/-- A command that the gate passes. -/
theorem serves_passed {r : Ref} (hrisk : s.risk = .new .bench) (hs : Sim .release ⊤ s.engine.book r) (hr : r.Quoted n)
    (hgate : s.risk.preApplyCheck .release c s.engine.book = .ok (s.risk, none)) (hc : c.Checked .release)
    (hsnap : c ≠ .snapshot) (hnm : n ≤ m) (hb : ∀ o, r.Brings c o → o.Quoted m)
    (hserved : Served c (r.apply .release c).2) : s.Serves c m := by
  obtain ⟨e', happly, hs'⟩ := hs.apply hc (Fits.of_total Profile.release_total _) (fun he => absurd he hsnap)
  refine ⟨_, _, processCommand_apply hgate happly, ?_, hrisk, _, hs', ?_⟩
  · rw [map_snd_numbered]
    exact hserved
  · exact (r.did .release c).quoted hs.wf (hr.mono hnm) hb

/-- The gate off the switch, for a new order. -/
theorem gate_newOrder (hrisk : s.risk = .new .bench) {a i p q ts : ℕ} {side : Side} {k : OrderKind} {t : Tif}
    {v : Option Event} (hcheck : RiskState.newOrderCheck .release .bench a i side p q k t s.engine.book = .ok v) :
    s.risk.preApplyCheck .release (.newOrder a i side p q k t ts) s.engine.book = .ok (s.risk, v) := by
  rw [hrisk]
  exact bind_of_ok hcheck

/-- **One order of the workload.** -/
theorem Bursting.order (h : s.Bursting n) (hn : n ≤ 84000000) (hc : Workload.SendsOrder n c) : s.Serves c (n + 1) := by
  obtain ⟨hrisk, r, hs, hr⟩ := h
  have hserved := hr.served_order hs.wf .release hc
  have hb : ∀ o, r.Brings c o → o.Quoted (n + 1) := fun o ho => Ref.brings_quoted hc ho
  cases hc with
  | @limit side price qty hlow hhigh hpos hqty =>
    have hgate := hs.gate_limit hr hn (n % 256 + 1) (n + 1) side ⟨hlow, hhigh⟩ hqty
    exact serves_passed hrisk hs hr (gate_newOrder hrisk hgate) ⟨by omega, fun _ _ => by omega⟩ (by simp)
      (Nat.le_succ n) hb hserved
  | @market side =>
    rcases hs.gate_market hr hn (n % 256 + 1) (n + 1) side with hgate | hgate
    · exact serves_passed hrisk hs hr (gate_newOrder hrisk hgate) ⟨by omega, by simp⟩ (by simp) (Nat.le_succ n) hb
        hserved
    · refine ⟨_, _, processCommand_reject (gate_newOrder hrisk hgate), ?_, hrisk, r, hs, ?_⟩
      · intro a i reason hmem
        cases List.mem_singleton.1 hmem
        rfl
      · exact hr.mono (Nat.le_succ n)

/-- **One cancel.** -/
theorem Bursting.cancel (h : s.Bursting n) (a i : ℕ) : s.Serves (.cancelOrder a i) n := by
  obtain ⟨hrisk, r, hs, hr⟩ := h
  have hgate : s.risk.preApplyCheck .release (.cancelOrder a i) s.engine.book = .ok (s.risk, none) := by
    rw [hrisk]
    rfl
  exact serves_passed hrisk hs hr hgate trivial (by simp) (le_refl n) (fun _ hb => hb.elim)
    (r.served_cancel .release a i)

/-- **A whole burst.** -/
theorem Bursting.run {cmds : List Command} (ht : Traffic n cmds m) (hlen : n + cmds.length ≤ 84000000)
    (h : s.Bursting n) : ∃ s' evss, s.runFrom .release cmds = .ok (s', evss) ∧
      List.Forall₂ (fun c evs => Served c (evs.map Prod.snd)) cmds evss := by
  induction ht generalizing s with
  | nil => exact ⟨s, [], rfl, .nil⟩
  | @order n m c cs sends rest ih =>
    rw [List.length_cons] at hlen
    obtain ⟨s₁, evs, hstep, hserved, h₁⟩ := h.order (by omega) sends
    obtain ⟨s', evss, hrun, hall⟩ := ih (by omega) h₁
    exact ⟨s', evs :: evss, run_cons_ok hstep hrun, .cons hserved hall⟩
  | @cancel n m a i cs rest ih =>
    rw [List.length_cons] at hlen
    obtain ⟨s₁, evs, hstep, hserved, h₁⟩ := h.cancel a i
    obtain ⟨s', evss, hrun, hall⟩ := ih (by omega) h₁
    exact ⟨s', evs :: evss, run_cons_ok hstep hrun, .cons hserved hall⟩

end System

/-- **A burst is not turned away by the limits**: whatever the mix, the seed and what the reader reports in between,
drawing up to 84 million commands never panics, the daemon under `risk-bench.toml` processes them all, and it refuses
none but a cancel of an order that is gone and a market order that finds nothing to price itself by. -/
theorem burst_never_risk_rejected (mix : Mix) (seed : UInt64) {acts : List WorkAct}
    (hburst : WorkAct.draws acts ≤ 84000000) :
    ∃ w outs s evss, run Workload.step (Workload.new mix seed) acts = .ok (w, outs) ∧
      (Workload.sent outs).length = WorkAct.draws acts ∧
      (System.new .bench).runFrom .release (Workload.sent outs) = .ok (s, evss) ∧
      List.Forall₂ (fun c evs => Served c (evs.map Prod.snd)) (Workload.sent outs) evss := by
  obtain ⟨w, outs, m, hrun, htraffic, hlen⟩ := Workload.run_traffic acts (Workload.At.new mix seed) (by omega)
  obtain ⟨s, evss, hsystem, hall⟩ := System.Bursting.new.run htraffic (by omega)
  exact ⟨w, outs, s, evss, hrun, hlen, hsystem, hall⟩

/-- The default mix and seed; a cancel of an order that never was. -/
theorem burst_never_risk_rejected_default :
    ∃ w outs s evss, run Workload.step (Workload.new ⟨70, 20, 10⟩ 0x9E3779B97F4A7C15)
        [.next, .next, .observe (.accepted 9 9 5), .next, .next, .observe (.cancelled 9 9), .next] = .ok (w, outs) ∧
      (Workload.sent outs).length = 5 ∧ (System.new .bench).runFrom .release (Workload.sent outs) = .ok (s, evss) ∧
      List.Forall₂ (fun c evs => Served c (evs.map Prod.snd)) (Workload.sent outs) evss :=
  burst_never_risk_rejected _ _ (by decide)

end MatchingEngine
