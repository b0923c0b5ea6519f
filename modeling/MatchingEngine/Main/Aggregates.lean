import MatchingEngine.Main.Band

/-!
# Cached sums never wrap

Under the default limits every resting quantity and price is at most the notional cap, so
with fewer than `2 ^ 32` orders no level total comes near `2 ^ 64`, and no sum of the gate
near its bound either. The amends have to respect the cap themselves: one that does not
wraps a level total (`amend_wraps_level_total`).

* `Ref.Modest`: the bounds on a state.
* `Sim.gate_ok`: on such a state the gate's arithmetic stays in range.
* `aggregates_never_wrap`: whole runs, in any build.
-/

namespace MatchingEngine

namespace Ref

/-- Every account's notional at most `M`, no zero price, and the last trade at a price of at most `M`. -/
structure Modest (M : ℕ) (r : Ref) : Prop where
  cap : ∀ a, r.notional a ≤ M
  priced : r.NoZero
  lastTrade : ∀ p, r.lastTrade = some p → p ≤ M

variable {M : ℕ} {r r' : Ref} {o : Order} {c : Command} {evs : List Event}

theorem Modest.qty_le (h : r.Modest M) (ho : o ∈ r.orders) : o.qty ≤ M :=
  calc o.qty ≤ o.price * o.qty := Nat.le_mul_of_pos_left _ (Nat.pos_of_ne_zero (h.priced o ho))
    _ ≤ r.notional o.account := mem_notional ho
    _ ≤ M := h.cap o.account

theorem Modest.price_le (h : r.Modest M) (hw : r.WF) (ho : o ∈ r.orders) : o.price ≤ M :=
  calc o.price ≤ o.price * o.qty := Nat.le_mul_of_pos_right _ (hw.pos o ho)
    _ ≤ r.notional o.account := mem_notional ho
    _ ≤ M := h.cap o.account

theorem Modest.head_le (h : r.Modest M) (hw : r.WF) {s : Side} {p : ℕ}
    (hp : (r.side s).head?.map Order.price = some p) : p ≤ M := by
  obtain ⟨o, ho, rfl⟩ := Option.map_eq_some_iff.1 hp
  exact h.price_le hw (r.side_sub_orders s o (List.mem_of_head? ho))

/-- A level's total is bounded by the number of orders. -/
theorem Modest.qtyAt_le (h : r.Modest M) (s : Side) (p : ℕ) : qtyAt (r.side s) p ≤ r.orders.length * M := by
  have hside : (r.side s).length ≤ r.orders.length := by
    unfold orders
    rw [List.length_append]
    cases s with
    | buy => exact Nat.le_add_right _ _
    | sell => exact Nat.le_add_left _ _
  have hsum : qtyAt (r.side s) p ≤ ((r.side s).filter (fun o => o.price = p)).length * M := by
    unfold qtyAt
    have := List.sum_le_card_nsmul (((r.side s).filter (fun o => o.price = p)).map Order.qty) M (by
      intro q hq
      obtain ⟨o, ho, rfl⟩ := List.mem_map.1 hq
      exact h.qty_le (r.side_sub_orders s o (List.mem_filter.1 ho).1))
    rwa [List.length_map, smul_eq_mul] at this
  calc qtyAt (r.side s) p ≤ ((r.side s).filter (fun o => o.price = p)).length * M := hsum
    _ ≤ (r.side s).length * M := Nat.mul_le_mul_right _ (List.length_filter_le _ _)
    _ ≤ r.orders.length * M := Nat.mul_le_mul_right _ hside

theorem Modest.new (M : ℕ) : Ref.new.Modest M :=
  ⟨fun _ => Nat.zero_le _, by simp [NoZero, Ref.new, orders], by simp [Ref.new]⟩

/-- The last trade stays at a bounded price. -/
theorem Modest.trade_le (h : r.Modest M) (hw : r.WF) (hd : Did r c r' evs) : ∀ p, r'.lastTrade = some p → p ≤ M := by
  intro p hp
  rcases hd.lastTrade hw with ht | ⟨o, ho, ht⟩
  · exact h.lastTrade p (ht ▸ hp)
  · rw [ht, Option.some.injEq] at hp
    rw [← hp]
    exact h.price_le hw ho

end Ref

section Gate

variable {P : Profile} {N : ℕ∞} {b : Book} {r : Ref}

/-- The notional cap of the default limits. -/
def defaultCap : ℕ := RiskConfig.default.maxNotional

theorem defaultCap_eq : defaultCap = 100000000 := rfl

theorem Sim.reference_le (h : Sim P N b r) (hm : r.Modest defaultCap) {side : Side} {p : ℕ}
    (hp : RiskState.marketReferencePrice side b = some p) : p ≤ defaultCap := by
  unfold RiskState.marketReferencePrice at hp
  rw [h.lastTrade] at hp
  cases ht : r.lastTrade with
  | some last =>
    rw [ht] at hp
    exact hm.lastTrade p (ht.trans hp)
  | none =>
    rw [ht] at hp
    cases side with
    | buy => exact hm.head_le h.wf (s := .sell) (h.bestAsk ▸ hp)
    | sell => exact hm.head_le h.wf (s := .buy) (h.bestBid ▸ hp)

/-- The mid price and the last trade are in range. -/
theorem Sim.bandReference_ok (h : Sim P N b r) (hP : P.Faithful) (hm : r.Modest defaultCap) :
    ∃ v, RiskState.priceBandReference P b = .ok v ∧ ∀ p, v = some p → p ≤ defaultCap := by
  have hcap := defaultCap_eq
  unfold RiskState.priceBandReference
  rw [h.lastTrade]
  cases ht : r.lastTrade with
  | some last =>
    refine ⟨some last, rfl, ?_⟩
    intro p hp
    exact hm.lastTrade p (ht.trans hp)
  | none =>
    cases hb : b.bestBid with
    | none => exact ⟨none, rfl, by simp⟩
    | some bid =>
      cases ha : b.bestAsk with
      | none => exact ⟨none, rfl, by simp⟩
      | some ask =>
        have h1 : bid ≤ defaultCap := hm.head_le h.wf (s := .buy) (h.bestBid ▸ hb)
        have h2 : ask ≤ defaultCap := hm.head_le h.wf (s := .sell) (h.bestAsk ▸ ha)
        have hsum := hP.store64 (show bid + ask < 2 ^ 64 by omega)
        push_cast at hsum
        refine ⟨some ((bid + ask) / 2), ?_, ?_⟩
        · simp only [hsum, bind, Except.bind, pure, Except.pure]
        · intro p hp
          rw [Option.some.injEq] at hp
          omega

theorem withinBand_ok (hP : P.Faithful) {reference : ℕ} (hr : reference ≤ defaultCap) (price : ℕ) :
    ∃ v, RiskState.withinBand P RiskConfig.default.priceBandPct reference price = .ok v := by
  have hcap := defaultCap_eq
  exact ⟨_, RiskState.withinBand_eq hP (by decide) (by omega)⟩

/-- The checks of a new order are in range. -/
theorem Sim.newOrderCheck_ok (h : Sim P N b r) (hP : P.Faithful) (hm : r.Modest defaultCap) (a i : ℕ) (side : Side)
    {p q : ℕ} (k : OrderKind) (t : Tif) (hp : p < 2 ^ 64) (hq : q < 2 ^ 64) :
    ∃ v, RiskState.newOrderCheck P .default a i side p q k t b = .ok v := by
  have hcap := defaultCap_eq
  have hn : b.accountNotional a ≤ defaultCap := by
    have := hm.cap a
    rw [h.accountNotional hP (by omega)]
    exact this
  -- two 64-bit factors leave room for the cap
  have hstore : ∀ e, e < 2 ^ 64 → ∃ v, P.store128 ((b.accountNotional a : ℤ) + (e * q : ℕ)) = .ok v := by
    intro e he
    have hmul : e * q ≤ (2 ^ 64 - 1) * (2 ^ 64 - 1) := Nat.mul_le_mul (by omega) (by omega)
    exact ⟨_, by exact_mod_cast hP.store128 (show b.accountNotional a + e * q < 2 ^ 128 by omega)⟩
  unfold RiskState.newOrderCheck
  simp only [bind, Except.bind, pure, Except.pure]
  split
  · exact ⟨_, rfl⟩
  cases k with
  | market =>
    cases hr : RiskState.marketReferencePrice side b with
    | none => exact ⟨_, rfl⟩
    | some e =>
      have := h.reference_le hm hr
      obtain ⟨v, hv⟩ := hstore e (by omega)
      simp only [hv]
      split
      · exact ⟨_, rfl⟩
      · exact ⟨_, rfl⟩
  | limit =>
    obtain ⟨v, hv⟩ := hstore p hp
    simp only [hv]
    split
    · exact ⟨_, rfl⟩
    obtain ⟨ref, href, hle⟩ := h.bandReference_ok hP hm
    simp only [href]
    cases ref with
    | none => exact ⟨_, rfl⟩
    | some reference =>
      obtain ⟨w, hw⟩ := withinBand_ok hP (hle reference rfl) p
      simp only [hw]
      split
      · exact ⟨_, rfl⟩
      · exact ⟨_, rfl⟩

/-- **The gate never panics on a modest state.** -/
theorem Sim.gate_ok (h : Sim P N b r) (hP : P.Faithful) (hm : r.Modest defaultCap) {risk : RiskState}
    (hcfg : risk.config = .default) {c : Command} (hc : c.Decodable) :
    ∃ risk' v, risk.preApplyCheck P c b = .ok (risk', v) := by
  refine RiskState.preApplyCheck_ok fun a i side p q k t ts he => ?_
  subst he
  rw [hcfg]
  exact h.newOrderCheck_ok hP hm a i side k t hc.2.2.1 hc.2.2.2.1

end Gate

section Run

variable {P : Profile} {s : System} {c : Command}

/-- The orders the arena has room for: slots are `u32`, the last value being the null link. -/
abbrev slotCount : ℕ := 2 ^ 32 - 1

/-- What holds along a run: a modest state within the slots. -/
def Modestly (P : Profile) (s : System) : Prop :=
  s.risk.config = .default ∧ ∃ r, Sim P slotCount s.engine.book r ∧ r.Modest defaultCap

/-- On a modest state within the slots no level total reaches `2 ^ 64`. -/
theorem Ref.Modest.qtyAt_lt {r : Ref} (h : r.Modest defaultCap) (hn : r.orders.length ≤ slotCount) (side : Side) (p : ℕ) :
    qtyAt (r.side side) p < 2 ^ 64 :=
  calc qtyAt (r.side side) p ≤ r.orders.length * defaultCap := h.qtyAt_le side p
    _ ≤ slotCount * defaultCap := Nat.mul_le_mul_right _ hn
    _ < 2 ^ 64 := by norm_num [defaultCap_eq]

/-- A modest state within the slots can be stored. -/
theorem Ref.Modest.fits {r : Ref} (h : r.Modest defaultCap) (hP : P.Faithful) (hn : r.orders.length ≤ slotCount) :
    Fits P slotCount r := by
  have hcap := defaultCap_eq
  refine ⟨fun side p => ?_, fun a => ?_, by exact_mod_cast hn⟩
  · rw [hP.u64 _ (h.qtyAt_lt hn side p)]
    rfl
  · have hle := h.cap a
    rw [hP.u128 _ (by omega)]
    rfl

/-- **One command on a modest state**: it goes through without a panic and leaves a modest state. -/
theorem Modestly.step (hP : P.Faithful) (h : Modestly P s) (hc : c.Decodable) (hpriced : s.AmendPriced c)
    (hamend : s.AmendWithinCap c) (hroom : s.engine.book.arena.len < slotCount) :
    ∃ s' evs, s.processCommand P c = .ok (s', evs) ∧ Modestly P s' := by
  obtain ⟨hcfg, r, hs, hm⟩ := h
  obtain ⟨risk, v, hgate⟩ := hs.gate_ok hP hm hcfg hc
  obtain ⟨hcfg', -, -⟩ := RiskState.preApplyCheck_cases hgate
  cases v with
  | some ev => exact ⟨_, _, System.processCommand_reject hgate, hcfg'.trans hcfg, r, hs, hm⟩
  | none =>
    have hd := r.did P c
    have hcap : ∀ a, r.notional a ≤ s.risk.config.maxNotional := by rw [hcfg]; exact hm.cap
    -- two 64-bit factors and the cap are far below `2 ^ 128`
    have hsum : s.SumInRange c := by
      cases c with
      | newOrder a i side p q k t ts =>
        intro _ _ _
        have hcap' := defaultCap_eq
        have hle := hm.cap a
        have hmul : p * q ≤ (2 ^ 64 - 1) * (2 ^ 64 - 1) :=
          Nat.mul_le_mul (by have := hc.2.2.1; omega) (by have := hc.2.2.2.1; omega)
        rw [hs.accountNotional hP (by omega)]
        omega
      | _ => trivial
    have hm' : (r.apply P c).1.Modest defaultCap := by
      refine ⟨?_, hs.priced hgate hd hc hm.priced hpriced, hm.trade_le hs.wf hd⟩
      have := hs.capped hP hgate hd hcap hsum hamend
      rw [hcfg] at this
      exact this
    have hlen : (r.apply P c).1.orders.length ≤ slotCount := by
      have h1 : (r.apply P c).1.orders.length ≤ r.orders.length + 1 := hd.length hs.wf
      have h2 := hs.len
      omega
    obtain ⟨e, he, hs'⟩ := hs.apply hc.checked (hm'.fits hP hlen) (fun _ => hm.priced)
    exact ⟨_, _, System.processCommand_apply hgate he, hcfg'.trans hcfg, _, hs', hm'⟩

/-- Under the default limits, with amends that have a price and respect the cap, and fewer than
`2 ^ 32 - 1` orders resting before each command, **no cached sum ever leaves its range**: a build that
panics on overflow goes through, and in every build each level total and each account's notional is
the exact sum over the resting orders. -/
theorem aggregates_never_wrap (hP : P.Faithful) {cmds : List Command}
    (hcmds : Along (System.processCommand P) (fun s c => c.Decodable ∧ s.AmendPriced c ∧ s.AmendWithinCap c ∧
      s.engine.book.arena.len < slotCount) (System.new .default) cmds) :
    ∃ s evss, (System.new .default).runFrom P cmds = .ok (s, evss) ∧
      (∀ side p l, (s.engine.book.map side)[p]? = some l → l.totalQty = s.engine.book.restingQty side p) ∧
      ∀ a e, s.engine.book.accounts.lookup a = some e → e.notional = s.engine.book.grossNotional a := by
  have h0 : Modestly P (System.new .default) := ⟨rfl, Ref.new, Sim.new P slotCount, Ref.Modest.new defaultCap⟩
  obtain ⟨s, evss, hrun, -, r, hs, hm⟩ := run_ok (Modestly P)
    (fun s c h hc => Modestly.step hP h hc.1 hc.2.1 hc.2.2.1 hc.2.2.2) h0 hcmds
  refine ⟨s, evss, hrun, ?_, ?_⟩
  · intro side p l hl
    rw [hs.restingQty]
    have hlen : r.orders.length ≤ slotCount := by
      rw [← hs.len]
      unfold Arena.len
      have : s.engine.book.arena.slots.length ≤ slotCount := by exact_mod_cast hs.slots
      omega
    have htotal := hs.totalQty hl
    rw [hP.u64 _ (hm.qtyAt_lt hlen side p), Option.some.injEq] at htotal
    exact htotal.symm
  · intro a e he
    rw [hs.grossNotional]
    have hle := hm.cap a
    have hcap := defaultCap_eq
    rw [← hs.accountNotional hP (by omega)]
    unfold Book.accountNotional
    rw [he]
    rfl

/-- A partial fill, a second order at the level and an amend within the cap, with overflow checks on. -/
theorem aggregates_never_wrap_dev :
    ∃ s evss, (System.new .default).runFrom .dev
        [.newOrder 1 1 .sell 100 5 .limit .gtc 0, .newOrder 2 1 .sell 100 7 .limit .gtc 0,
         .newOrder 3 1 .buy 100 2 .limit .ioc 0, .cancelReplace 2 1 100 900000] = .ok (s, evss) ∧
      ∀ side p l, (s.engine.book.map side)[p]? = some l → l.totalQty = s.engine.book.restingQty side p := by
  obtain ⟨s, evss, hrun, hlevels, -⟩ := @aggregates_never_wrap .dev Profile.dev_faithful
    [.newOrder 1 1 .sell 100 5 .limit .gtc 0, .newOrder 2 1 .sell 100 7 .limit .gtc 0,
     .newOrder 3 1 .buy 100 2 .limit .ioc 0, .cancelReplace 2 1 100 900000] (by decide +kernel)
  exact ⟨s, evss, hrun, hlevels⟩

/-- **An amend wraps a level total**: amended to `u64::MAX` lots, one more lot at its price brings the
cached total to zero where `2 ^ 64` lots rest; with overflow checks the same run panics. -/
theorem amend_wraps_level_total :
    (∀ c ∈ [Command.newOrder 1 1 .sell 100 1 .limit .gtc 0, .cancelReplace 1 1 100 (2 ^ 64 - 1),
      .newOrder 2 1 .sell 100 1 .limit .gtc 0], c.Decodable) ∧
    (∃ s evss, (System.new .default).runFrom .release
        [.newOrder 1 1 .sell 100 1 .limit .gtc 0, .cancelReplace 1 1 100 (2 ^ 64 - 1),
         .newOrder 2 1 .sell 100 1 .limit .gtc 0] = .ok (s, evss) ∧
      (s.engine.book.map .sell)[100]?.map Level.totalQty = some 0 ∧ s.engine.book.restingQty .sell 100 = 2 ^ 64) ∧
    (System.new .default).runFrom .dev
        [.newOrder 1 1 .sell 100 1 .limit .gtc 0, .cancelReplace 1 1 100 (2 ^ 64 - 1),
         .newOrder 2 1 .sell 100 1 .limit .gtc 0] = .error .overflow := by
  refine ⟨by decide, ?_, ?_⟩
  · obtain ⟨⟨s, evss⟩, hrun, hone⟩ := exists_ok_of_decide (x := (System.new .default).runFrom .release
      [.newOrder 1 1 .sell 100 1 .limit .gtc 0, .cancelReplace 1 1 100 (2 ^ 64 - 1),
       .newOrder 2 1 .sell 100 1 .limit .gtc 0])
      (p := fun v => (v.1.engine.book.map .sell)[100]?.map Level.totalQty = some 0 ∧
        v.1.engine.book.restingQty .sell 100 = 2 ^ 64) (by decide +kernel)
    exact ⟨s, evss, hrun, hone⟩
  · rfl

end Run

end MatchingEngine
