import MatchingEngine.Risk.Limits
import MatchingEngine.Gateway.Routing

/-!
# The price band

A limit price enters the book with a new order or with an amend. The gate holds the first
against the band around the reference price, the last trade or else the mid; it does not look
at the second.

* `price_band_holds`: a command keeps to the band if and only if it is no amend that reprices
  a resting order outside it.
* `amend_leaves_band`: an amend that does.
-/

namespace MatchingEngine

/-- `p` is at most `pct` percent away from the reference, in the arithmetic of the check. -/
def InBand (pct reference p : ℕ) : Prop := reference * (100 - pct) / 100 ≤ p ∧ p ≤ reference * (100 + pct) / 100

instance (pct reference p : ℕ) : Decidable (InBand pct reference p) := inferInstanceAs (Decidable (_ ∧ _))

/-- The check computes this, for a reference in the range of a `u64` and a band of at most 100 percent. -/
theorem RiskState.withinBand_eq {P : Profile} (hP : P.Faithful) {pct reference p : ℕ} (hpct : pct ≤ 100)
    (href : reference < 2 ^ 64) : withinBand P pct reference p = .ok (decide (InBand pct reference p)) := by
  have hlower : reference * (100 - pct) ≤ (2 ^ 64 - 1) * 100 := Nat.mul_le_mul (by omega) (by omega)
  have hupper : reference * (100 + pct) ≤ (2 ^ 64 - 1) * 200 := Nat.mul_le_mul (by omega) (by omega)
  have h1 := hP.store128 (show 100 - pct < 2 ^ 128 by omega)
  have h2 := hP.store128 (show 100 + pct < 2 ^ 128 by omega)
  have h3 := hP.store128 (show reference * (100 - pct) < 2 ^ 128 by omega)
  have h4 := hP.store128 (show reference * (100 + pct) < 2 ^ 128 by omega)
  rw [Nat.cast_sub hpct] at h1
  rw [Nat.cast_add] at h2
  rw [Nat.cast_mul] at h3 h4
  push_cast at h1 h2
  unfold withinBand
  simp only [h1, h2, h3, h4, bind, Except.bind, pure, Except.pure, Except.ok.injEq]
  rw [Bool.eq_iff_iff, decide_eq_true_iff]
  unfold InBand
  simp only [Bool.not_eq_true', Bool.or_eq_false_iff, decide_eq_false_iff_not]
  omega

/-- Resting prices and the last trade price are in the range of a `u64`. -/
structure Ref.Ranged (r : Ref) : Prop where
  prices : ∀ o ∈ r.orders, o.price < 2 ^ 64
  lastTrade : ∀ p, r.lastTrade = some p → p < 2 ^ 64

theorem Ref.Did.ranged {r r' : Ref} {c : Command} {evs : List Event} (hd : Did r c r' evs) (h : r.WF)
    (hc : c.Decodable) (hr : r.Ranged) : r'.Ranged := by
  constructor
  · intro o ho
    obtain ⟨s, ho⟩ := (r'.mem_orders o).1 ho
    rcases hd.origin h ho with ⟨x, hx, -, hp, -⟩ | hb
    · rw [← hp]
      exact hr.prices x (r.side_sub_orders s x hx)
    · cases c with
      | newOrder a i s p q k t ts =>
        rw [hb.2.2.2.2.1]
        exact hc.2.2.1
      | cancelReplace a i p q =>
        rw [hb.2.2.1]
        exact hc.2.2.1
      | _ => exact hb.elim
  · intro p hp
    rcases hd.lastTrade h with hl | ⟨o, ho, hl⟩
    · exact hr.lastTrade p (hl.symm.trans hp)
    · rw [← Option.some.inj (hl.symm.trans hp)]
      exact hr.prices o ho

namespace System

variable {s s' : System} {c : Command} {evs : List (ℕ × Event)}

/-- What holds along every run. -/
def Ranged (s : System) : Prop := ∃ r, Sim .release ⊤ s.engine.book r ∧ r.Ranged

theorem ranged_run {config : RiskConfig} {cmds : List Command} (hcmds : ∀ c ∈ cmds, c.Decodable)
    {evss : List (List (ℕ × Event))} (hrun : (System.new config).runFrom .release cmds = .ok (s, evss)) :
    s.risk.config = config ∧ s.Ranged := by
  refine run_ref Profile.release_total Ref.Ranged ?_ ?_
    ((along_of_forall (Q := fun _ => True) (fun _ _ => trivial)).and_forall hcmds) hrun
  · intro s risk r c _ hs _ hc _ hr
    exact (r.did .release c).ranged hs.wf hc hr
  · exact ⟨by simp [Ref.new, Ref.orders], by simp [Ref.new]⟩

/-- A reference is a `u64`: a price that traded, or a stored sum halved. -/
theorem Ranged.reference (h : s.Ranged) {reference : ℕ}
    (href : RiskState.priceBandReference .release s.engine.book = .ok (some reference)) : reference < 2 ^ 64 := by
  obtain ⟨r, hs, hr⟩ := h
  unfold RiskState.priceBandReference at href
  split at href
  · next last hl =>
    rw [hs.lastTrade] at hl
    have heq : last = reference := Option.some.inj (Except.ok.inj href)
    exact heq ▸ hr.lastTrade last hl
  · split at href
    -- the sum wraps, but what is stored and halved is in range all the same
    · next bid ask _ _ =>
      have hstore : Profile.release.store64 ((bid : ℤ) + ask) = .ok (((bid : ℤ) + ask) % 2 ^ 64).toNat := rfl
      simp only [bind, Except.bind, hstore, pure, Except.pure, Except.ok.injEq, Option.some.injEq] at href
      omega
    · cases href

/-- The command, having emitted `evs`, has committed an order to the limit price `p`: a limit order that was
not rejected, or an amend that was carried out and changed the price. -/
def CommitsPrice (s : System) (evs : List (ℕ × Event)) (p : ℕ) : Command → Prop
  | .newOrder a i _ price _ kind _ _ => kind = .limit ∧ p = price ∧ ∀ x ∈ evs, ∀ reason, x.2 ≠ .rejected a i reason
  | .cancelReplace a i newPrice _ => p = newPrice ∧ (∃ x ∈ evs, ∃ q kept, x.2 = .replaced a i q kept) ∧
      ∃ p₀ q₀, s.engine.book.restingOrderSnapshot a i = some (p₀, q₀) ∧ newPrice ≠ p₀
  | _ => False

/-- Every price the command commits is in the band around the reference before it. -/
def KeepsBand (s : System) (c : Command) (evs : List (ℕ × Event)) : Prop :=
  ∀ p reference, s.CommitsPrice evs p c → RiskState.priceBandReference .release s.engine.book = .ok (some reference) →
    InBand s.risk.config.priceBandPct reference p

/-- An amend that reprices a resting order, while the kill switch is off, would pass the check of a new
order's price. -/
def AmendInBand (s : System) : Command → Prop
  | .cancelReplace a i p _ => s.risk.killSwitchEngaged = false → ∀ p₀ q₀ reference,
      s.engine.book.restingOrderSnapshot a i = some (p₀, q₀) → p ≠ p₀ →
      RiskState.priceBandReference .release s.engine.book = .ok (some reference) →
      RiskState.withinBand .release s.risk.config.priceBandPct reference p = .ok true
  | _ => True

/-- **A new limit order keeps to the band.** -/
theorem newOrder_keepsBand {a i : ℕ} {side : Side} {p q : ℕ} {k : OrderKind} {t : Tif} {ts : ℕ}
    (hpct : s.risk.config.priceBandPct ≤ 100) (hr : s.Ranged)
    (h : s.processCommand .release (.newOrder a i side p q k t ts) = .ok (s', evs)) :
    s.KeepsBand (.newOrder a i side p q k t ts) evs := by
  rintro _ reference ⟨rfl, rfl, hnot⟩ href
  rcases processCommand_gate h with ⟨ev, hg, -, rfl⟩ | ⟨hg, -⟩
  · obtain ⟨a', i', reason, rfl, hself⟩ := RiskState.preApplyCheck_answers hg
    obtain ⟨rfl, rfl⟩ : a = a' ∧ i = i' := by simpa [commandSelfId] using hself
    exact absurd rfl (hnot _ List.mem_cons_self reason)
  · obtain ⟨-, -, hpass⟩ := RiskState.preApplyCheck_cases hg
    have hwithin := RiskState.newOrderCheck_band ((hpass rfl).2 a i side _ q .limit t ts rfl) href
    rw [RiskState.withinBand_eq Profile.release_faithful hpct (hr.reference href), Except.ok.injEq, decide_eq_true_eq] at hwithin
    exact hwithin

/-- An amend of a resting order that the kill switch does not stop is carried out. -/
theorem amend_replaced {a i p q p₀ q₀ : ℕ} {r : Ref} (hs : Sim .release ⊤ s.engine.book r) (hq : q ≠ 0)
    (hoff : s.risk.killSwitchEngaged = false) (hsnap : s.engine.book.restingOrderSnapshot a i = some (p₀, q₀))
    (h : s.processCommand .release (.cancelReplace a i p q) = .ok (s', evs)) :
    ∃ x ∈ evs, ∃ kept, x.2 = .replaced a i q kept := by
  rcases processCommand_gate h with ⟨ev, hg, -, -⟩ | ⟨-, evs', ha, rfl⟩
  · simp [RiskState.preApplyCheck, hoff] at hg
  · obtain ⟨rfl, -⟩ := hs.apply_of_ok (c := .cancelReplace a i p q) trivial (Fits.of_total Profile.release_total _) ha
    -- both branches of `modify` answer with `Replaced`
    have hmodify : ∃ kept, Event.replaced a i q kept ∈ (r.modify a i p q).2 := by
      rw [hs.restingOrderSnapshot, Option.map_eq_some_iff] at hsnap
      obtain ⟨⟨side, x⟩, hf, -⟩ := hsnap
      unfold Ref.modify
      rw [if_neg hq, hf]
      by_cases hkeep : p = x.price ∧ q ≤ x.qty
      · exact ⟨true, by simp [hkeep]⟩
      · exact ⟨false, by simp [hkeep]⟩
    obtain ⟨kept, hmem⟩ := hmodify
    refine ⟨(s.engineSeq + 1, .replaced a i q kept), List.mem_map.2 ⟨_, ?_, rfl⟩, kept, rfl⟩
    rcases r.apply_emits .release (.cancelReplace a i p q) with he | ⟨bid, ask, he⟩
    · rw [he]
      exact hmem
    · rw [he]
      exact List.mem_append_left _ hmem

/-- A repricing amend is not carried out while the kill switch is on. -/
theorem replaced_off {a i p q p₀ q₀ : ℕ} (hsnap : s.engine.book.restingOrderSnapshot a i = some (p₀, q₀))
    (hne : p ≠ p₀) (h : s.processCommand .release (.cancelReplace a i p q) = .ok (s', evs))
    (hrep : ∃ x ∈ evs, ∃ q kept, x.2 = .replaced a i q kept) : s.risk.killSwitchEngaged = false := by
  by_contra hon
  obtain ⟨x, hx, q', kept, hxr⟩ := hrep
  rcases processCommand_gate h with ⟨ev, hg, -, rfl⟩ | ⟨hg, -⟩
  · obtain ⟨a', i', reason, rfl, -⟩ := RiskState.preApplyCheck_answers hg
    rw [List.mem_singleton.1 hx] at hxr
    cases hxr
  · obtain ⟨-, -, hpass⟩ := RiskState.preApplyCheck_cases hg
    exact hne (RiskState.killSwitchCheck_amend ((hpass rfl).1 (by simpa using hon)) hsnap).1

/-- **An amend keeps to the band exactly if it would have passed the check of a new order.** -/
theorem amend_keepsBand {a i p q : ℕ} (hpct : s.risk.config.priceBandPct ≤ 100) (hr : s.Ranged) (hq : q ≠ 0)
    (h : s.processCommand .release (.cancelReplace a i p q) = .ok (s', evs)) :
    s.KeepsBand (.cancelReplace a i p q) evs ↔ s.AmendInBand (.cancelReplace a i p q) := by
  have hwithin : ∀ {reference}, RiskState.priceBandReference .release s.engine.book = .ok (some reference) →
      (RiskState.withinBand .release s.risk.config.priceBandPct reference p = .ok true ↔
        InBand s.risk.config.priceBandPct reference p) := by
    intro reference href
    rw [RiskState.withinBand_eq Profile.release_faithful hpct (hr.reference href), Except.ok.injEq, decide_eq_true_eq]
  -- one direction needs that the amend is carried out, the other that the switch was off
  constructor
  · intro hband hoff p₀ q₀ reference hsnap hne href
    obtain ⟨r, hs, -⟩ := hr
    obtain ⟨x, hx, kept, hxr⟩ := amend_replaced hs hq hoff hsnap h
    exact (hwithin href).2 (hband p reference ⟨rfl, ⟨x, hx, q, kept, hxr⟩, p₀, q₀, hsnap, hne⟩ href)
  · rintro hamend _ reference ⟨rfl, hrep, p₀, q₀, hsnap, hne⟩ href
    exact (hwithin href).1 (hamend (replaced_off hsnap hne h hrep) p₀ q₀ reference hsnap hne href)

end System

/-- **When the price band holds**: in every reachable state, a command commits its order to a price in the
band around the reference if and only if it is not an amend that reprices a resting order, with the kill
switch off, to a price the check of new orders would turn away. -/
theorem price_band_holds {config : RiskConfig} (hpct : config.priceBandPct ≤ 100) {cmds : List Command}
    (hcmds : ∀ c ∈ cmds, c.Decodable) {s : System} {evss : List (List (ℕ × Event))}
    (hrun : (System.new config).runFrom .release cmds = .ok (s, evss)) {c : Command} (hc : c.Decodable)
    {s' : System} {evs : List (ℕ × Event)} (hstep : s.processCommand .release c = .ok (s', evs)) :
    s.KeepsBand c evs ↔ s.AmendInBand c := by
  obtain ⟨rfl, hr⟩ := System.ranged_run hcmds hrun
  cases c with
  | newOrder a i side p q k t ts => exact iff_of_true (System.newOrder_keepsBand hpct hr hstep) trivial
  | cancelReplace a i p q => exact System.amend_keepsBand hpct hr hc.2.2.2.2 hstep
  | _ => exact iff_of_true (fun _ _ hcommit => hcommit.elim) trivial

/-- A trade at 100, then an amend to 105: within ten percent. -/
theorem price_band_holds_amend :
    ∃ s evss s' evs, (System.new .default).runFrom .release
        [.newOrder 1 1 .sell 100 5 .limit .gtc 0, .newOrder 2 1 .buy 100 3 .limit .gtc 0] = .ok (s, evss) ∧
      s.processCommand .release (.cancelReplace 1 1 105 2) = .ok (s', evs) ∧
      s.KeepsBand (.cancelReplace 1 1 105 2) evs := by
  obtain ⟨⟨s, evss⟩, hrun, hok, href⟩ := exists_ok_of_decide (x := (System.new .default).runFrom .release
      [.newOrder 1 1 .sell 100 5 .limit .gtc 0, .newOrder 2 1 .buy 100 3 .limit .gtc 0])
    (p := fun r => (r.1.processCommand .release (.cancelReplace 1 1 105 2)).isOk = true ∧
      RiskState.priceBandReference .release r.1.engine.book = .ok (some 100)) (by decide +kernel)
  obtain ⟨⟨s', evs⟩, hstep⟩ := exists_of_isOk hok
  refine ⟨s, evss, s', evs, hrun, hstep, (price_band_holds (by decide) (by decide) hrun (by decide) hstep).2 ?_⟩
  intro _ p₀ q₀ reference _ _ href'
  obtain rfl : 100 = reference := by simpa [href] using href'
  rw [(System.ranged_run (by decide) hrun).1]
  rfl

/-- **An amend leaves the band**: after a trade at 100 the rest of the order is repriced to 1000. -/
theorem amend_leaves_band :
    ∃ s evss s' evs, (System.new .default).runFrom .release
        [.newOrder 1 1 .sell 100 5 .limit .gtc 0, .newOrder 2 1 .buy 100 3 .limit .gtc 0] = .ok (s, evss) ∧
      s.processCommand .release (.cancelReplace 1 1 1000 2) = .ok (s', evs) ∧
      ¬ s.KeepsBand (.cancelReplace 1 1 1000 2) evs := by
  obtain ⟨⟨s, evss⟩, hrun, hok, hoff, hsnap, href, hpct⟩ := exists_ok_of_decide
    (x := (System.new .default).runFrom .release
      [.newOrder 1 1 .sell 100 5 .limit .gtc 0, .newOrder 2 1 .buy 100 3 .limit .gtc 0])
    (p := fun r => (r.1.processCommand .release (.cancelReplace 1 1 1000 2)).isOk = true ∧
      r.1.risk.killSwitchEngaged = false ∧ r.1.engine.book.restingOrderSnapshot 1 1 = some (100, 2) ∧
      RiskState.priceBandReference .release r.1.engine.book = .ok (some 100) ∧ r.1.risk.config.priceBandPct = 10)
    (by decide +kernel)
  obtain ⟨⟨s', evs⟩, hstep⟩ := exists_of_isOk hok
  obtain ⟨-, r, hs, -⟩ := System.ranged_run (by decide) hrun
  obtain ⟨x, hx, kept, hxr⟩ := System.amend_replaced hs (by decide) hoff hsnap hstep
  refine ⟨s, evss, s', evs, hrun, hstep, fun hband => ?_⟩
  have hin := hband 1000 100 ⟨rfl, ⟨x, hx, 2, kept, hxr⟩, 100, 2, hsnap, by decide⟩ href
  rw [hpct] at hin
  exact absurd hin (by decide)

end MatchingEngine
