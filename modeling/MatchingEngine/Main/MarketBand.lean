import MatchingEngine.Main.Band
import MatchingEngine.Main.Priority
import MatchingEngine.Ref.Fills

/-!
# Market orders and the band

Market orders are exempt from the band check, on the ground that they only meet depth that
passed it. What they meet passed it, if at all, against the reference of its own day: an
order taken on before there was a reference, or under an earlier one, or amended since, may
rest anywhere.

* `reached`: the orders of a queue a quantity gets to.
* `Ref.WF.sweep_tradePrices`: a sweep prints the prices of the foreign orders it gets to.
* `market_fills_in_band_iff`: a market order's trades are in the band if and only if the
  orders it gets to are.
* `market_fill_outside`: one that trades at ten times the reference.
-/

namespace MatchingEngine

/-- The orders of a queue that a quantity gets to before it is used up. -/
def reached : ℕ → List Order → List Order
  | _, [] => []
  | q, o :: l => if q = 0 then [] else o :: reached (q - o.qty) l

theorem reached_zero (l : List Order) : reached 0 l = [] := by
  cases l with
  | nil => rfl
  | cons o l => exact if_pos rfl

/-- The price of a print. -/
def Event.tradePrice : Event → Option ℕ
  | .trade price _ _ => some price
  | _ => none

namespace Ref

variable {r : Ref} {a i : ℕ} {s : Side} {limit q : ℕ}

/-- **A sweep prints the prices of the foreign orders it gets to.** -/
theorem WF.sweep_tradePrices (h : r.WF) : (r.sweep a i s limit q).2.2.filterMap Event.tradePrice =
    (reached q ((r.crossing s limit).filter (fun o => o.account ≠ a))).map Order.price := by
  refine h.sweep_induct (motive := fun r q res => res.2.2.filterMap Event.tradePrice =
    (reached q ((r.crossing s limit).filter (fun o => o.account ≠ a))).map Order.price) a i s limit ?_ ?_ ?_ ?_ q
  · rintro r q _ (rfl | hnil)
    · simp [reached_zero]
    · simp [hnil, reached]
  · intro r q o l r' q' evs h hc hx _ ha ih
    have hcross : (r.remove s.opposite o).crossing s limit = l.takeWhile (fun o => s.crosses limit o.price) :=
      crossing_remove h hc limit (r.remove s.opposite o).lastTrade
    rw [hcross] at ih
    rw [crossing_cons hc hx, List.filter_cons_of_neg (by simpa using ha), ← ih]
    rfl
  · intro r q o l r' q' evs h hc hx hq ha _ ih
    rw [crossing_remove h hc] at ih
    rw [crossing_cons hc hx, List.filter_cons_of_pos (by simpa using ha), reached, if_neg (by omega), List.map_cons,
      ← ih]
    rfl
  · intro r q o l _ hc hx hq ha hlt
    rw [crossing_cons hc hx, List.filter_cons_of_pos (by simpa using ha), reached, if_neg (by omega),
      show q - o.qty = 0 by omega, reached_zero]
    rfl

/-- To a market order everything crosses. -/
theorem Ranged.crossing_market (hr : r.Ranged) (s : Side) :
    r.crossing s (Book.marketBound s) = r.side s.opposite := by
  unfold crossing
  refine List.takeWhile_eq_self_iff.2 (fun o ho => decide_eq_true ?_)
  have hp := hr.prices o (r.side_sub_orders _ o ho)
  cases s with
  | buy =>
    show o.price ≤ u64Max
    unfold u64Max
    omega
  | sell => exact Nat.zero_le _

/-- What a market order prints: nothing under a key that rests, else the prices of what it gets to. -/
theorem WF.market_tradePrices (h : r.WF) (hr : r.Ranged) (P : Profile) (a i : ℕ) (s : Side) (p q : ℕ) (t : Tif)
    (ts : ℕ) : (r.apply P (.newOrder a i s p q .market t ts)).2.filterMap Event.tradePrice =
      if (r.find (a, i)).isSome then [] else (reached q (r.foreign a s.opposite)).map Order.price := by
  have happly : (r.apply P (.newOrder a i s p q .market t ts)).2.filterMap Event.tradePrice =
      (r.submitIoc a i s (Book.marketBound s) q).2.filterMap Event.tradePrice := by
    have hdisp : r.dispatch P (.newOrder a i s p q .market t ts) = r.submitIoc a i s (Book.marketBound s) q := by
      cases s <;> rfl
    rw [← hdisp]
    rcases r.apply_emits P (.newOrder a i s p q .market t ts) with he | ⟨bid, ask, he⟩
    · rw [he]
    · rw [he, List.filterMap_append]
      exact List.append_nil _
  rw [happly]
  unfold submitIoc unlessDuplicate
  split
  · rfl
  · show ((r.sweep a i s (Book.marketBound s) q).2.2 ++ [Event.accepted a i 0]).filterMap Event.tradePrice = _
    rw [List.filterMap_append, h.sweep_tradePrices, hr.crossing_market]
    exact List.append_nil _

end Ref

/-- The orders of other accounts that a market order for `q` gets to. -/
def Book.reachedBy (b : Book) (accountId : ℕ) (side : Side) (q : ℕ) : List Order :=
  reached q ((b.ordersOf side.opposite).filter (fun o => o.account ≠ accountId))

namespace System

/-- Every trade is in the band around the reference before the command. -/
def TradesInBand (s : System) (evs : List (ℕ × Event)) : Prop :=
  ∀ reference, RiskState.priceBandReference .release s.engine.book = .ok (some reference) →
    ∀ x ∈ evs, ∀ price qty taker, x.2 = .trade price qty taker → InBand s.risk.config.priceBandPct reference price

/-- A market order that the gate lets through, under an id that does not rest, gets to orders in the band only. -/
def ReachInBand (s : System) : Command → Prop
  | .newOrder a i side p q kind t ts => ∀ reference,
      RiskState.priceBandReference .release s.engine.book = .ok (some reference) →
      (s.risk.preApplyCheck .release (.newOrder a i side p q kind t ts) s.engine.book).map Prod.snd = .ok none →
      s.engine.book.orderIndex.lookup (a, i) = none →
      ∀ o ∈ s.engine.book.reachedBy a side q, InBand s.risk.config.priceBandPct reference o.price
  | _ => True

/-- Trades in the band, read off the prints. -/
theorem tradesInBand_numbered {s : System} (seq : ℕ) (evs : List Event) :
    s.TradesInBand (evs.map (fun ev => (seq, ev))) ↔
      ∀ reference, RiskState.priceBandReference .release s.engine.book = .ok (some reference) →
        ∀ price ∈ evs.filterMap Event.tradePrice, InBand s.risk.config.priceBandPct reference price := by
  unfold TradesInBand
  refine forall_congr' fun reference => imp_congr_right fun _ => ⟨?_, ?_⟩
  · intro h price hp
    obtain ⟨ev, hev, htrade⟩ := List.mem_filterMap.1 hp
    cases ev with
    | trade price' qty taker =>
      obtain rfl : price' = price := Option.some.inj htrade
      exact h (seq, _) (List.mem_map.2 ⟨_, hev, rfl⟩) _ qty taker rfl
    | _ => cases htrade
  · rintro h x hx price qty taker hxt
    obtain ⟨ev, hev, rfl⟩ := List.mem_map.1 hx
    simp only at hxt
    subst hxt
    exact h price (List.mem_filterMap.2 ⟨_, hev, rfl⟩)

end System

/-- **When market fills stay inside the band.** In every reachable state, the trades of a market order are
inside the band around the reference if and only if the gate or the duplicate check turns it away, or every
order of another account that it gets to is priced inside the band. -/
theorem market_fills_in_band_iff {config : RiskConfig} {cmds : List Command} (hcmds : ∀ c ∈ cmds, c.Decodable)
    {s : System} {evss : List (List (ℕ × Event))}
    (hrun : (System.new config).runFrom .release cmds = .ok (s, evss)) {a i : ℕ} {side : Side} {p q : ℕ} {t : Tif}
    {ts : ℕ} (hc : (Command.newOrder a i side p q .market t ts).Decodable) {s' : System} {evs : List (ℕ × Event)}
    (hstep : s.processCommand .release (.newOrder a i side p q .market t ts) = .ok (s', evs)) :
    s.TradesInBand evs ↔ s.ReachInBand (.newOrder a i side p q .market t ts) := by
  obtain ⟨-, r, hs, hr⟩ := System.ranged_run hcmds hrun
  have hreach : s.engine.book.reachedBy a side q = reached q (r.foreign a side.opposite) := by
    unfold Book.reachedBy
    rw [hs.ordersOf]
    rfl
  rcases System.processCommand_gate hstep with ⟨ev, hg, -, rfl⟩ | ⟨hg, evs', ha, rfl⟩
  · -- turned away: nothing trades, and nothing is asked
    obtain ⟨a', i', reason, rfl, -⟩ := RiskState.preApplyCheck_answers hg
    refine iff_of_true ?_ ?_
    · intro reference _ x hx price qty taker hxt
      rw [List.mem_singleton.1 hx] at hxt
      cases hxt
    · intro reference _ hpass
      rw [hg] at hpass
      cases hpass
  · obtain ⟨rfl, -⟩ := hs.applied Profile.release_total hc ha
    rw [System.tradesInBand_numbered, hs.wf.market_tradePrices hr]
    refine forall_congr' fun reference => imp_congr_right fun _ => ?_
    have hpass : (s.risk.preApplyCheck .release (.newOrder a i side p q .market t ts) s.engine.book).map Prod.snd =
        .ok none := by rw [hg]; rfl
    rw [forall_prop_of_true hpass, hreach]
    rcases hs.lookup (a, i) with ⟨hnone, hfind⟩ | ⟨x, n, hsome, -, -, hfind⟩
    · rw [hnone, hfind, forall_prop_of_true rfl]
      simp
    · rw [hsome, hfind]
      exact iff_of_true (fun price hp => nomatch hp) (fun h => nomatch h)

/-- Two asks at 100 and 105 and a trade at 100: a market order for both stays inside the band. -/
theorem market_fills_in_band_two_levels :
    ∃ s evss s' evs, (System.new .default).runFrom .release
        [.newOrder 1 1 .sell 100 5 .limit .gtc 0, .newOrder 1 2 .sell 105 5 .limit .gtc 0,
         .newOrder 2 1 .buy 100 3 .limit .gtc 0] = .ok (s, evss) ∧
      s.processCommand .release (.newOrder 2 2 .buy 0 4 .market .ioc 0) = .ok (s', evs) ∧
      RiskState.priceBandReference .release s.engine.book = .ok (some 100) ∧ s.TradesInBand evs := by
  obtain ⟨⟨s, evss⟩, hrun, hok, href, hpct, hreach⟩ := exists_ok_of_decide
    (x := (System.new .default).runFrom .release
      [.newOrder 1 1 .sell 100 5 .limit .gtc 0, .newOrder 1 2 .sell 105 5 .limit .gtc 0,
       .newOrder 2 1 .buy 100 3 .limit .gtc 0])
    (p := fun r => (r.1.processCommand .release (.newOrder 2 2 .buy 0 4 .market .ioc 0)).isOk = true ∧
      RiskState.priceBandReference .release r.1.engine.book = .ok (some 100) ∧
      r.1.risk.config.priceBandPct = 10 ∧ ∀ o ∈ r.1.engine.book.reachedBy 2 .buy 4, InBand 10 100 o.price)
    (by decide +kernel)
  obtain ⟨⟨s', evs⟩, hstep⟩ := exists_of_isOk hok
  refine ⟨s, evss, s', evs, hrun, hstep, href,
    (market_fills_in_band_iff (by decide) hrun (by decide) hstep).2 ?_⟩
  intro reference href' _ _ o ho
  obtain rfl : 100 = reference := by simpa [href] using href'
  rw [hpct]
  exact hreach o ho

/-- **A market order trades far outside the band**, with no amend involved: the ask at 1000 was taken on while
there was no reference, then 100 traded. -/
theorem market_fill_outside :
    ∃ s evss s' evs, (System.new .default).runFrom .release
        [.newOrder 1 1 .sell 1000 5 .limit .gtc 0, .newOrder 1 2 .sell 100 1 .limit .gtc 0,
         .newOrder 2 1 .buy 100 1 .limit .gtc 0] = .ok (s, evss) ∧
      RiskState.priceBandReference .release s.engine.book = .ok (some 100) ∧ s.risk.config.priceBandPct = 10 ∧
      s.processCommand .release (.newOrder 2 2 .buy 0 2 .market .ioc 0) = .ok (s', evs) ∧
      (4, .trade 1000 2 .buy) ∈ evs ∧ ¬ s.TradesInBand evs := by
  obtain ⟨⟨s, evss⟩, hrun, href, hpct, htrade⟩ := exists_ok_of_decide
    (x := (System.new .default).runFrom .release
      [.newOrder 1 1 .sell 1000 5 .limit .gtc 0, .newOrder 1 2 .sell 100 1 .limit .gtc 0,
       .newOrder 2 1 .buy 100 1 .limit .gtc 0])
    (p := fun r => RiskState.priceBandReference .release r.1.engine.book = .ok (some 100) ∧
      r.1.risk.config.priceBandPct = 10 ∧
      ((r.1.processCommand .release (.newOrder 2 2 .buy 0 2 .market .ioc 0)).toOption.map
        (fun v => decide ((4, .trade 1000 2 .buy) ∈ v.2))) = some true) (by decide +kernel)
  obtain ⟨⟨s', evs⟩, hstep, hmem⟩ := exists_ok_of_map_toOption htrade
  have hmem := of_decide_eq_true hmem
  refine ⟨s, evss, s', evs, hrun, href, hpct, hstep, hmem, fun h => ?_⟩
  have hin := h 100 href _ hmem 1000 2 .buy rfl
  rw [hpct] at hin
  exact absurd hin (by decide)

end MatchingEngine
