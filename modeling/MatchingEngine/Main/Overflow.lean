import MatchingEngine.Lib.Outcome
import MatchingEngine.Main.Band
import MatchingEngine.Risk.Config

/-!
# The gate's arithmetic

What the gate computes for a new order, in a build that checks every result and in one that
wraps. A checked evaluation that ends shows that every intermediate was in range, and then
the wrapping build decides the same.

* `preApplyCheck_refined`: what the checked gate decides, the wrapping gate decides.
* `newOrderCheck_limit_ok`, `newOrderCheck_market_ok`: when the checked evaluation ends.
* `gate_in_range_iff`: in every reachable state, whatever the limits file holds.
* `gate_overflows`: a band of 150 percent, and a notional past `u128` after an amend.
-/

namespace MatchingEngine

namespace Profile

theorem dev_store64_overflow {x : ℤ} (h : ¬ (0 ≤ x ∧ x < 2 ^ 64)) : dev.store64 x = .error .overflow := by
  unfold store64
  rw [show dev.u64.val x = none from Word.checked_none h]

theorem dev_store128_overflow {x : ℤ} (h : ¬ (0 ≤ x ∧ x < 2 ^ 128)) : dev.store128 x = .error .overflow := by
  unfold store128
  rw [show dev.u128.val x = none from Word.checked_none h]

theorem dev_store64_refined (x : ℤ) : Refined (dev.store64 x) (release.store64 x) := fun _ h =>
  store64_ok (Word.checked_wrapping (store64_inv h))

theorem dev_store128_refined (x : ℤ) : Refined (dev.store128 x) (release.store128 x) := fun _ h =>
  store128_ok (Word.checked_wrapping (store128_inv h))

end Profile

namespace RiskState

variable {b : Book} {config : RiskConfig} {a i : ℕ} {side : Side} {p q : ℕ} {t : Tif}

theorem priceBandReference_refined (b : Book) :
    Refined (priceBandReference .dev b) (priceBandReference .release b) := by
  unfold priceBandReference
  split
  · exact .refl _
  · split
    · exact .bind (Profile.dev_store64_refined _) (fun _ => .refl _)
    · exact .refl _

theorem withinBand_refined (pct reference price : ℕ) :
    Refined (withinBand .dev pct reference price) (withinBand .release pct reference price) :=
  .bind (Profile.dev_store128_refined _) fun _ => .bind (Profile.dev_store128_refined _) fun _ =>
    .bind (Profile.dev_store128_refined _) fun _ => .bind (Profile.dev_store128_refined _) fun _ => .refl _

theorem newOrderCheck_refined (config : RiskConfig) (a i : ℕ) (side : Side) (p q : ℕ) (k : OrderKind) (t : Tif)
    (b : Book) : Refined (newOrderCheck .dev config a i side p q k t b)
      (newOrderCheck .release config a i side p q k t b) := by
  have hsum := fun x => Profile.dev_store128_refined x
  unfold newOrderCheck
  refine .ite (.refl _) ?_
  cases k with
  | market =>
    simp only
    cases marketReferencePrice side b with
    | none => exact .refl _
    | some price => exact .bind (hsum _) fun total => .refl _
  | limit =>
    refine .bind (hsum _) fun total => .ite (.refl _) (.bind (priceBandReference_refined b) fun reference => ?_)
    cases reference with
    | none => exact .refl _
    | some reference => exact .bind (withinBand_refined _ _ _) fun within => .refl _

/-- **What the checked gate decides, the wrapping gate decides.** -/
theorem preApplyCheck_refined (s : RiskState) (c : Command) (b : Book) :
    Refined (s.preApplyCheck .dev c b) (s.preApplyCheck .release c b) := by
  unfold preApplyCheck
  split
  · exact .refl _
  · split
    · exact .refl _
    · split
      · exact .bind (newOrderCheck_refined _ _ _ _ _ _ _ _ _) fun _ => .refl _
      · exact .refl _

/-- The mid of a two-sided book that has not traded is a `u64` sum. -/
def MidFits (b : Book) : Prop :=
  b.lastTrade = none → ∀ bid ask, b.bestBid = some bid → b.bestAsk = some ask → bid + ask < 2 ^ 64

/-- There is something to band a price around. -/
def HasReference (b : Book) : Prop := b.lastTrade.isSome = true ∨ b.bestBid.isSome = true ∧ b.bestAsk.isSome = true

/-- **The checked reference** exists unless the mid overflows. -/
theorem priceBandReference_dev (hlast : ∀ x, b.lastTrade = some x → x < 2 ^ 64) :
    ¬ MidFits b ∧ priceBandReference .dev b = .error .overflow ∨
      MidFits b ∧ ((¬ HasReference b ∧ priceBandReference .dev b = .ok none) ∨
        HasReference b ∧ ∃ reference < 2 ^ 64, priceBandReference .dev b = .ok (some reference)) := by
  unfold priceBandReference MidFits HasReference
  cases hl : b.lastTrade with
  | some last => exact .inr ⟨nofun, .inr ⟨.inl rfl, last, hlast last hl, rfl⟩⟩
  | none =>
    cases hb : b.bestBid with
    | none => exact .inr ⟨fun _ _ _ h => (nomatch h), .inl ⟨by simp, rfl⟩⟩
    | some bid =>
      cases ha : b.bestAsk with
      | none => exact .inr ⟨fun _ _ _ _ h => (nomatch h), .inl ⟨by simp, rfl⟩⟩
      | some ask =>
        by_cases hfits : bid + ask < 2 ^ 64
        · have hsum := Profile.dev_faithful.store64 hfits
          rw [Nat.cast_add] at hsum
          have hmid : ∀ x y, some bid = some x → some ask = some y → x + y < 2 ^ 64 := by
            rintro x y ⟨⟩ ⟨⟩
            exact hfits
          refine .inr ⟨fun _ => hmid, .inr ⟨.inr ⟨rfl, rfl⟩, (bid + ask) / 2, by omega, ?_⟩⟩
          exact bind_of_ok hsum
        · have hover : ¬ (0 ≤ (bid : ℤ) + ask ∧ (bid : ℤ) + ask < 2 ^ 64) := by omega
          refine .inl ⟨fun h => hfits (h rfl bid ask rfl rfl), ?_⟩
          exact bind_of_error (Profile.dev_store64_overflow hover)

/-- The checked band test ends if and only if the band is at most 100 percent. -/
theorem withinBand_dev (pct : ℕ) {reference : ℕ} (price : ℕ) (href : reference < 2 ^ 64) :
    pct ≤ 100 ∧ (∃ w, withinBand .dev pct reference price = .ok w) ∨
      ¬ pct ≤ 100 ∧ withinBand .dev pct reference price = .error .overflow := by
  by_cases hpct : pct ≤ 100
  · exact .inl ⟨hpct, _, withinBand_eq Profile.dev_faithful hpct href⟩
  · refine .inr ⟨hpct, ?_⟩
    exact bind_of_error (Profile.dev_store128_overflow (by omega))

/-- **A limit order, checked**: the sum with the account's notional, then the mid, then the band. -/
theorem newOrderCheck_limit_ok (hlast : ∀ x, b.lastTrade = some x → x < 2 ^ 64) :
    (∃ v, newOrderCheck .dev config a i side p q .limit t b = .ok v) ↔
      ((t = .gtc ∨ t = .postOnly → b.accountOpenOrderCount a < config.maxOpenOrders) →
        b.accountNotional a + p * q < 2 ^ 128 ∧
        (b.accountNotional a + p * q ≤ config.maxNotional →
          MidFits b ∧ (HasReference b → config.priceBandPct ≤ 100))) := by
  unfold newOrderCheck
  simp only [decide_true, Bool.true_and, Bool.and_eq_true, Bool.or_eq_true, decide_eq_true_eq, ge_iff_le]
  by_cases hopen : (t = .gtc ∨ t = .postOnly) ∧ config.maxOpenOrders ≤ b.accountOpenOrderCount a
  · rw [if_pos hopen]
    refine iff_of_true ⟨_, rfl⟩ (fun h => ?_)
    have := h hopen.1
    omega
  · rw [if_neg hopen]
    have hcount : t = .gtc ∨ t = .postOnly → b.accountOpenOrderCount a < config.maxOpenOrders := by
      intro ht
      by_contra hge
      exact hopen ⟨ht, by omega⟩
    rw [forall_prop_of_true hcount]
    by_cases hsum : b.accountNotional a + p * q < 2 ^ 128
    · have hstore := Profile.dev_faithful.store128 hsum
      rw [Nat.cast_add] at hstore
      rw [and_iff_right hsum, bind_of_ok hstore]
      by_cases hcap : b.accountNotional a + p * q ≤ config.maxNotional
      · rw [if_neg (show ¬ b.accountNotional a + p * q > config.maxNotional by omega), forall_prop_of_true hcap]
        rcases priceBandReference_dev hlast with ⟨hmid, href⟩ | ⟨hmid, ⟨hno, href⟩ | ⟨hhas, reference, hr, href⟩⟩
        · simp only [bind_of_error href]
          exact iff_of_false (fun ⟨v, hv⟩ => nomatch hv) (fun h => hmid h.1)
        · simp only [bind_of_ok href]
          exact iff_of_true ⟨_, rfl⟩ ⟨hmid, fun h => absurd h hno⟩
        · simp only [bind_of_ok href]
          rcases withinBand_dev config.priceBandPct p hr with ⟨hpct, w, hw⟩ | ⟨hpct, hw⟩
          · rw [bind_of_ok hw]
            refine iff_of_true ?_ ⟨hmid, fun _ => hpct⟩
            split
            · exact ⟨_, rfl⟩
            · exact ⟨_, rfl⟩
          · rw [bind_of_error hw]
            exact iff_of_false (fun ⟨v, hv⟩ => nomatch hv) (fun h => hpct (h.2 hhas))
      · rw [if_pos (show b.accountNotional a + p * q > config.maxNotional by omega)]
        exact iff_of_true ⟨_, rfl⟩ (fun h => absurd h hcap)
    · have hover : ¬ (0 ≤ (b.accountNotional a : ℤ) + (p * q : ℕ) ∧
          (b.accountNotional a : ℤ) + (p * q : ℕ) < 2 ^ 128) := by omega
      simp only [bind_of_error (Profile.dev_store128_overflow hover)]
      exact iff_of_false (fun ⟨v, hv⟩ => nomatch hv) (fun h => hsum h.1)

/-- **A market order, checked**: only the sum with the account's notional. -/
theorem newOrderCheck_market_ok :
    (∃ v, newOrderCheck .dev config a i side p q .market t b = .ok v) ↔
      ∀ price, marketReferencePrice side b = some price → b.accountNotional a + price * q < 2 ^ 128 := by
  unfold newOrderCheck
  simp only [show (OrderKind.market = OrderKind.limit) = False from eq_false nofun, decide_false, Bool.false_and,
    Bool.false_eq_true, if_false]
  cases hprice : marketReferencePrice side b with
  | none => exact iff_of_true ⟨_, rfl⟩ (fun _ h => nomatch h)
  | some price =>
    by_cases hsum : b.accountNotional a + price * q < 2 ^ 128
    · have hstore := Profile.dev_faithful.store128 hsum
      rw [Nat.cast_add] at hstore
      simp only [bind_of_ok hstore]
      refine iff_of_true ?_ (fun x hx => Option.some.inj hx ▸ hsum)
      split
      · exact ⟨_, rfl⟩
      · exact ⟨_, rfl⟩
    · have hover : ¬ (0 ≤ (b.accountNotional a : ℤ) + (price * q : ℕ) ∧
          (b.accountNotional a : ℤ) + (price * q : ℕ) < 2 ^ 128) := by omega
      simp only [bind_of_error (Profile.dev_store128_overflow hover)]
      exact iff_of_false (fun ⟨v, hv⟩ => nomatch hv) (fun h => hsum (h price rfl))

end RiskState

namespace System

variable {s : System}

/-- A market order's reference is a `u64`. -/
theorem Ranged.marketReference (h : s.Ranged) {side : Side} {price : ℕ}
    (hprice : RiskState.marketReferencePrice side s.engine.book = some price) : price < 2 ^ 64 := by
  obtain ⟨r, hs, hr⟩ := h
  have hhead : ∀ side, (r.side side).head?.map Order.price = some price → price < 2 ^ 64 := by
    intro side hp
    obtain ⟨o, ho, rfl⟩ := Option.map_eq_some_iff.1 hp
    exact hr.prices o (r.side_sub_orders side o (List.mem_of_mem_head? ho))
  unfold RiskState.marketReferencePrice at hprice
  rw [hs.lastTrade] at hprice
  cases hl : r.lastTrade with
  | some last =>
    rw [hl] at hprice
    exact hr.lastTrade price (hl.trans hprice)
  | none =>
    rw [hl] at hprice
    cases side with
    | buy => exact hhead .sell (hs.bestAsk ▸ hprice)
    | sell => exact hhead .buy (hs.bestBid ▸ hprice)

/-- The gate evaluates the command with every intermediate in range: a build that checks every result comes to
an end, and the build that wraps decides the same. -/
def GateInRange (s : System) (c : Command) : Prop :=
  ∃ v, s.risk.preApplyCheck .dev c s.engine.book = .ok v ∧ s.risk.preApplyCheck .release c s.engine.book = .ok v

/-- What the operands of the gate's arithmetic have to respect, as far as the checks get: the account's notional
with the order's own, the mid of a book that has not traded, a band of at most 100 percent. -/
def GateFits (s : System) : Command → Prop
  | .newOrder a _ side p q kind t _ => s.risk.killSwitchEngaged = false →
    match kind with
    | .market => ∀ price, RiskState.marketReferencePrice side s.engine.book = some price →
        s.engine.book.accountNotional a + price * q < 2 ^ 128
    | .limit => (t = .gtc ∨ t = .postOnly → s.engine.book.accountOpenOrderCount a < s.risk.config.maxOpenOrders) →
        s.engine.book.accountNotional a + p * q < 2 ^ 128 ∧
        (s.engine.book.accountNotional a + p * q ≤ s.risk.config.maxNotional →
          RiskState.MidFits s.engine.book ∧
          (RiskState.HasReference s.engine.book → s.risk.config.priceBandPct ≤ 100))
  | _ => True

/-- A checked evaluation that ends is enough. -/
theorem gateInRange_iff (c : Command) :
    s.GateInRange c ↔ ∃ v, s.risk.preApplyCheck .dev c s.engine.book = .ok v :=
  ⟨fun ⟨v, hv, _⟩ => ⟨v, hv⟩, fun ⟨v, hv⟩ => ⟨v, hv, RiskState.preApplyCheck_refined _ _ _ v hv⟩⟩

/-- The gate of a new order is its checks, once the switch is passed. -/
theorem preApplyCheck_newOrder_ok {P : Profile} {a i : ℕ} {side : Side} {p q : ℕ} {k : OrderKind} {t : Tif} {ts : ℕ} :
    (∃ v, s.risk.preApplyCheck P (.newOrder a i side p q k t ts) s.engine.book = .ok v) ↔
      (s.risk.killSwitchEngaged = false →
        ∃ v, RiskState.newOrderCheck P s.risk.config a i side p q k t s.engine.book = .ok v) := by
  unfold RiskState.preApplyCheck
  cases s.risk.killSwitchEngaged with
  | true => simp [RiskState.killSwitchCheck]
  | false =>
    simp only [Bool.false_eq_true, if_false, forall_const]
    constructor
    · rintro ⟨v, hv⟩
      obtain ⟨r, hr, -⟩ := exists_of_bind_ok hv
      exact ⟨r, hr⟩
    · rintro ⟨r, hr⟩
      exact ⟨_, bind_of_ok hr⟩

end System

/-- **When the gate's arithmetic is in range.** Whatever the limits file holds, in every reachable state and for
every new order, price times quantity fits a `u128`, and every other intermediate of `pre_apply_check` is in
range if and only if the account's notional with the order's own is below `2 ^ 128` and, for a limit order
within the notional cap, the mid fits and the band is at most 100 percent. -/
theorem gate_in_range_iff (contents : Option String) {cmds : List Command} (hcmds : ∀ c ∈ cmds, c.Decodable)
    {s : System} {evss : List (List (ℕ × Event))}
    (hrun : (System.new (.load contents)).runFrom .release cmds = .ok (s, evss))
    {a i : ℕ} {side : Side} {p q : ℕ} {k : OrderKind} {t : Tif} {ts : ℕ}
    (hc : (Command.newOrder a i side p q k t ts).Decodable) :
    (p * q < 2 ^ 128 ∧ ∀ price, RiskState.marketReferencePrice side s.engine.book = some price →
      price * q < 2 ^ 128) ∧
    (s.GateInRange (.newOrder a i side p q k t ts) ↔ s.GateFits (.newOrder a i side p q k t ts)) := by
  obtain ⟨-, hr⟩ := System.ranged_run hcmds hrun
  have hmul : ∀ {x}, x < 2 ^ 64 → x * q < 2 ^ 128 := by
    intro x hx
    calc x * q < 2 ^ 64 * 2 ^ 64 := Nat.mul_lt_mul'' hx hc.2.2.2.1
      _ = 2 ^ 128 := by rw [← pow_add]
  have hlast : ∀ x, s.engine.book.lastTrade = some x → x < 2 ^ 64 := by
    obtain ⟨r, hs, hr⟩ := hr
    intro x hx
    exact hr.lastTrade x (hs.lastTrade ▸ hx)
  refine ⟨⟨hmul hc.2.2.1, fun price hprice => hmul (hr.marketReference hprice)⟩, ?_⟩
  rw [System.gateInRange_iff, System.preApplyCheck_newOrder_ok]
  cases k with
  | market => exact imp_congr_right fun _ => RiskState.newOrderCheck_market_ok
  | limit => exact imp_congr_right fun _ => RiskState.newOrderCheck_limit_ok hlast

/-- With the default limits and a trade at 100, an order at 105 is evaluated in range. -/
theorem gate_in_range_default :
    ∃ s evss, (System.new (.load none)).runFrom .release
        [.newOrder 1 1 .sell 100 5 .limit .gtc 0, .newOrder 2 1 .buy 100 3 .limit .gtc 0] = .ok (s, evss) ∧
      s.GateInRange (.newOrder 3 1 .buy 105 4 .limit .gtc 0) := by
  obtain ⟨⟨s, evss⟩, hrun, hsum, hlast, hpct⟩ := exists_ok_of_decide (x := (System.new (.load none)).runFrom .release
      [.newOrder 1 1 .sell 100 5 .limit .gtc 0, .newOrder 2 1 .buy 100 3 .limit .gtc 0])
    (p := fun r => r.1.engine.book.accountNotional 3 + 105 * 4 = 420 ∧ r.1.engine.book.lastTrade = some 100 ∧
      r.1.risk.config.priceBandPct = 10) (by decide +kernel)
  refine ⟨s, evss, hrun, ((gate_in_range_iff none (by decide) hrun (by decide)).2).2 ?_⟩
  dsimp only at hsum hlast hpct
  intro _ _
  refine ⟨by omega, fun _ => ⟨fun hnone => ?_, fun _ => by omega⟩⟩
  rw [hlast] at hnone
  cases hnone

/-- **The gate decides on wrapped values.** A file with a band of 150 percent: after a trade at 100 an order at
100 is turned away as outside the band. Without a file: an amend commits an account to almost `2 ^ 128`, and
its next order passes the notional cap because the sum comes out as 1. -/
theorem gate_overflows :
    (∃ s evss, (System.new (.load (some "price_band_pct = 150"))).runFrom .release
        [.newOrder 1 1 .sell 100 5 .limit .gtc 0, .newOrder 2 1 .buy 100 3 .limit .gtc 0] = .ok (s, evss) ∧
      (s.risk.preApplyCheck .dev (.newOrder 3 1 .buy 100 1 .limit .gtc 0) s.engine.book).map Prod.snd =
        .error .overflow ∧
      (s.risk.preApplyCheck .release (.newOrder 3 1 .buy 100 1 .limit .gtc 0) s.engine.book).map Prod.snd =
        .ok (some (.rejected 3 1 .priceBandViolation))) ∧
    ∃ s evss, (System.new (.load none)).runFrom .release
        [.newOrder 1 1 .buy 100 5 .limit .gtc 0, .cancelReplace 1 1 (2 ^ 64 - 1) (2 ^ 64 - 1)] = .ok (s, evss) ∧
      (s.risk.preApplyCheck .dev (.newOrder 1 2 .buy (2 ^ 63) 4 .limit .gtc 0) s.engine.book).map Prod.snd =
        .error .overflow ∧
      (s.risk.preApplyCheck .release (.newOrder 1 2 .buy (2 ^ 63) 4 .limit .gtc 0) s.engine.book).map Prod.snd =
        .ok none := by
  constructor
  · obtain ⟨⟨s, evss⟩, hrun, h⟩ := exists_ok_of_decide
      (x := (System.new (.load (some "price_band_pct = 150"))).runFrom .release
        [.newOrder 1 1 .sell 100 5 .limit .gtc 0, .newOrder 2 1 .buy 100 3 .limit .gtc 0])
      (p := fun r =>
        (r.1.risk.preApplyCheck .dev (.newOrder 3 1 .buy 100 1 .limit .gtc 0) r.1.engine.book).map Prod.snd =
          .error .overflow ∧
        (r.1.risk.preApplyCheck .release (.newOrder 3 1 .buy 100 1 .limit .gtc 0) r.1.engine.book).map Prod.snd =
          .ok (some (.rejected 3 1 .priceBandViolation))) (by decide +kernel)
    exact ⟨s, evss, hrun, h⟩
  · obtain ⟨⟨s, evss⟩, hrun, h⟩ := exists_ok_of_decide (x := (System.new (.load none)).runFrom .release
        [.newOrder 1 1 .buy 100 5 .limit .gtc 0, .cancelReplace 1 1 (2 ^ 64 - 1) (2 ^ 64 - 1)])
      (p := fun r =>
        (r.1.risk.preApplyCheck .dev (.newOrder 1 2 .buy (2 ^ 63) 4 .limit .gtc 0) r.1.engine.book).map Prod.snd =
          .error .overflow ∧
        (r.1.risk.preApplyCheck .release (.newOrder 1 2 .buy (2 ^ 63) 4 .limit .gtc 0) r.1.engine.book).map Prod.snd =
          .ok none) (by decide +kernel)
    exact ⟨s, evss, hrun, h⟩

end MatchingEngine
