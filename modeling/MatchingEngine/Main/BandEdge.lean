import MatchingEngine.Main.Band

/-!
# The edge of the price band

Both bounds of the band are divisions that truncate. The upper one loses nothing: a price
above the truncated bound is above the exact one. The lower one is let down to the next
tick, and that tick, outside the exact band, goes through.

* `not_inBand_iff`: the two roundings.
* `newOrderCheck_banded`: a limit order that comes as far as the band check is decided by it.
* `price_band_exact_iff`: the check agrees with the exact band but for that tick.
-/

namespace MatchingEngine

/-- **Truncation at the two bounds.** Outside the truncated band is outside the exact band, but for the tick
just below a lower bound that is between two ticks. -/
theorem not_inBand_iff (pct reference p : ℕ) :
    (¬ InBand pct reference p ↔
      100 * p < (100 - pct) * reference ∨ 100 * p > (100 + pct) * reference) ↔
    ¬ (¬ 100 ∣ (100 - pct) * reference ∧ p = (100 - pct) * reference / 100) := by
  unfold InBand
  have hle : (100 - pct) * reference ≤ (100 + pct) * reference := Nat.mul_le_mul_right _ (by omega)
  rw [Nat.mul_comm reference, Nat.mul_comm reference]
  generalize (100 - pct) * reference = lower at hle ⊢
  generalize (100 + pct) * reference = upper at hle ⊢
  omega

/-- **A limit order that comes as far as the band check is decided by it.** -/
theorem RiskState.newOrderCheck_banded {P : Profile} {config : RiskConfig} {book : Book} {a i : ℕ} {side : Side}
    {p q : ℕ} {t : Tif} (hopen : t = .gtc ∨ t = .postOnly → book.accountOpenOrderCount a < config.maxOpenOrders)
    {total : ℕ} (htotal : P.store128 ((book.accountNotional a : ℤ) + (p * q : ℕ)) = .ok total)
    (hcap : total ≤ config.maxNotional) {reference : ℕ} (href : priceBandReference P book = .ok (some reference))
    {within : Bool} (hband : withinBand P config.priceBandPct reference p = .ok within) :
    newOrderCheck P config a i side p q .limit t book =
      .ok (if within then none else some (.rejected a i .priceBandViolation)) := by
  have hcount : ¬ ((t = .gtc ∨ t = .postOnly) ∧ config.maxOpenOrders ≤ book.accountOpenOrderCount a) := by
    rintro ⟨ht, hge⟩
    have := hopen ht
    omega
  unfold newOrderCheck
  simp only [decide_true, Bool.true_and, Bool.and_eq_true, Bool.or_eq_true, decide_eq_true_eq, ge_iff_le,
    if_neg hcount, htotal, if_neg (show ¬ total > config.maxNotional by omega), href, hband, bind, Except.bind]
  cases within with
  | true => rfl
  | false => rfl

/-- **When the band is exact.** For a limit order past the kill switch, the open-order cap and the notional
cap, the gate answers `PriceBandViolation` exactly to the prices outside the exact band if and only if the
price is not the tick just below a lower bound between two ticks. -/
theorem price_band_exact_iff {P : Profile} (hP : P.Faithful) {s : RiskState} (hpct : s.config.priceBandPct ≤ 100)
    {book : Book} {reference : ℕ} (href : RiskState.priceBandReference P book = .ok (some reference))
    (hrange : reference < 2 ^ 64) {a i : ℕ} {side : Side} {p q : ℕ} {t : Tif} {ts : ℕ}
    (hswitch : s.killSwitchEngaged = false)
    (hopen : t = .gtc ∨ t = .postOnly → book.accountOpenOrderCount a < s.config.maxOpenOrders)
    {total : ℕ} (htotal : P.store128 ((book.accountNotional a : ℤ) + (p * q : ℕ)) = .ok total)
    (hcap : total ≤ s.config.maxNotional) :
    (s.preApplyCheck P (.newOrder a i side p q .limit t ts) book =
        .ok (s, some (.rejected a i .priceBandViolation)) ↔
      100 * p < (100 - s.config.priceBandPct) * reference ∨ 100 * p > (100 + s.config.priceBandPct) * reference) ↔
    ¬ (¬ 100 ∣ (100 - s.config.priceBandPct) * reference ∧ p = (100 - s.config.priceBandPct) * reference / 100) := by
  have hcheck : RiskState.newOrderCheck P s.config a i side p q .limit t book = _ :=
    RiskState.newOrderCheck_banded hopen htotal hcap href (RiskState.withinBand_eq hP hpct hrange)
  have hgate : s.preApplyCheck P (.newOrder a i side p q .limit t ts) book =
      .ok (s, some (.rejected a i .priceBandViolation)) ↔ ¬ InBand s.config.priceBandPct reference p := by
    simp only [RiskState.preApplyCheck, hswitch, hcheck, Bool.false_eq_true, if_false, bind, Except.bind, pure,
      Except.pure]
    by_cases hin : InBand s.config.priceBandPct reference p
    · simp [hin]
    · simp [hin]
  rw [hgate]
  exact not_inBand_iff _ _ _

/-- After a trade at 100 the bounds are ticks, 90 and 110: an order at 89 is turned away. -/
theorem price_band_exact_at_89 :
    ∃ s evss, (System.new .default).runFrom .dev
        [.newOrder 1 1 .sell 100 5 .limit .gtc 0, .newOrder 2 1 .buy 100 3 .limit .gtc 0] = .ok (s, evss) ∧
      s.risk.preApplyCheck .dev (.newOrder 3 1 .buy 89 1 .limit .gtc 0) s.engine.book =
        .ok (s.risk, some (.rejected 3 1 .priceBandViolation)) := by
  obtain ⟨⟨s, evss⟩, hrun, hoff, href, hopen, hsum, hpct, hcap⟩ := exists_ok_of_decide
    (x := (System.new .default).runFrom .dev
      [.newOrder 1 1 .sell 100 5 .limit .gtc 0, .newOrder 2 1 .buy 100 3 .limit .gtc 0])
    (p := fun r => r.1.risk.killSwitchEngaged = false ∧
      RiskState.priceBandReference .dev r.1.engine.book = .ok (some 100) ∧
      r.1.engine.book.accountOpenOrderCount 3 < r.1.risk.config.maxOpenOrders ∧
      Profile.dev.store128 ((r.1.engine.book.accountNotional 3 : ℤ) + (89 * 1 : ℕ)) = .ok 89 ∧
      r.1.risk.config.priceBandPct = 10 ∧ 89 ≤ r.1.risk.config.maxNotional) (by decide +kernel)
  refine ⟨s, evss, hrun, ?_⟩
  refine ((price_band_exact_iff Profile.dev_faithful (by omega) href (by decide) hoff (fun _ => hopen) hsum hcap).2
    ?_).2 ?_
  · rw [hpct]
    decide
  · rw [hpct]
    decide

/-- **A tick outside the band goes through.** After a trade at 101 the lower bound is 90.9; an order at 90 is
accepted. -/
theorem edge_tick_accepted :
    ∃ s evss, (System.new .default).runFrom .dev
        [.newOrder 1 1 .sell 101 5 .limit .gtc 0, .newOrder 2 1 .buy 101 3 .limit .gtc 0] = .ok (s, evss) ∧
      RiskState.priceBandReference .dev s.engine.book = .ok (some 101) ∧ s.risk.config.priceBandPct = 10 ∧
      (s.risk.preApplyCheck .dev (.newOrder 3 1 .buy 90 1 .limit .gtc 0) s.engine.book).map Prod.snd = .ok none ∧
      100 * 90 < (100 - 10) * 101 := by
  obtain ⟨⟨s, evss⟩, hrun, h⟩ := exists_ok_of_decide (x := (System.new .default).runFrom .dev
      [.newOrder 1 1 .sell 101 5 .limit .gtc 0, .newOrder 2 1 .buy 101 3 .limit .gtc 0])
    (p := fun r => RiskState.priceBandReference .dev r.1.engine.book = .ok (some 101) ∧
      r.1.risk.config.priceBandPct = 10 ∧
      (r.1.risk.preApplyCheck .dev (.newOrder 3 1 .buy 90 1 .limit .gtc 0) r.1.engine.book).map Prod.snd = .ok none ∧
      100 * 90 < (100 - 10) * 101) (by decide +kernel)
  exact ⟨s, evss, hrun, h⟩

end MatchingEngine
