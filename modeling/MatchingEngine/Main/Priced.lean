import MatchingEngine.Risk.Limits
import MatchingEngine.Wire.Inbound

/-!
# Zero prices

A zero price is refused where a message is decoded, and nowhere after. A new limit order
is checked there; the price of a cancel-replace is not, and `modify` rests it.

* `no_zero_price_rests`: as long as every accepted amend of a resting order has a price, no
  zero price rests or trades and every snapshot goes through.
* `amend_rests_zero_price`: an amend to price zero, after which a snapshot panics.
-/

namespace MatchingEngine

namespace System

/-- What holds along a run: no zero price in the book or on the tape. -/
def Priced (s : System) : Prop :=
  ∃ r, Sim .release ⊤ s.engine.book r ∧ r.NoZero ∧ r.lastTrade ≠ some 0

variable {s : System} {c : Command}

/-- **One command**: it goes through and brings no zero price. -/
theorem Priced.step (h : s.Priced) (hc : c.Decodable) (hamend : s.AmendPriced c) :
    ∃ s' evs, s.processCommand .release c = .ok (s', evs) ∧ s'.Priced := by
  obtain ⟨r, hs, hz, ht⟩ := h
  obtain ⟨risk, v, hgate⟩ := s.risk.preApplyCheck_release c s.engine.book
  cases v with
  | some ev => exact ⟨_, _, processCommand_reject hgate, r, hs, hz, ht⟩
  | none =>
    have hd := r.did .release c
    obtain ⟨e, he, hs'⟩ := hs.apply hc.checked (Fits.of_total Profile.release_total _) (fun _ => hz)
    refine ⟨_, _, processCommand_apply hgate he, _, hs', hs.priced hgate hd hc hz hamend, ?_⟩
    -- a trade is at the price of an order that rested
    intro h0
    rcases hd.lastTrade hs.wf with hl | ⟨o, ho, hl⟩
    · exact ht (hl.symm.trans h0)
    · exact hz o ho (Option.some.inj (hl.symm.trans h0))

end System

/-- **No zero price rests or trades**, and no snapshot panics, in a run of accepted frames whose amends
of resting orders have a price. -/
theorem no_zero_price_rests (config : RiskConfig) (frames : List (List UInt8))
    (hamends : Along (System.processCommand .release) (fun s c => s.AmendPriced c) (System.new config)
      (accepted frames)) :
    ∃ s evss, (System.new config).runFrom .release (accepted frames) = .ok (s, evss) ∧
      (∀ n ∈ s.engine.book.nodes, n.price ≠ 0) ∧ s.engine.book.lastTrade ≠ some 0 := by
  have h0 : (System.new config).Priced :=
    ⟨Ref.new, Sim.new .release ⊤, by simp [Ref.NoZero, Ref.new, Ref.orders], by simp [Ref.new]⟩
  obtain ⟨s, evss, hrun, r, hs, hz, ht⟩ := run_ok System.Priced
    (fun s c h hc => h.step hc.1 hc.2) h0 (hamends.and_forall accepted_decodable)
  refine ⟨s, evss, hrun, ?_, ?_⟩
  · intro n hn
    obtain ⟨x, hx⟩ := Book.mem_nodes.1 hn
    exact hz n.order (r.side_sub_orders _ _ (hs.node hx))
  · rw [hs.lastTrade]
    exact ht

/-- The frame of a `NewOrder`: account 1, order 1, sell, price 100, quantity 5, limit, GTC. -/
def sellFrame : List UInt8 :=
  [tagNewOrder, 1, 0, 0, 0, 0, 0, 0, 0, 1, 0, 0, 0, 0, 0, 0, 0, 1, 100, 0, 0, 0, 0, 0, 0, 0,
    5, 0, 0, 0, 0, 0, 0, 0, 0, 0, 0, 0, 0, 0, 0, 0, 0, 0]

/-- The frame of a `CancelReplace` of that order: quantity 1 at a price below 256. -/
def amendFrame (price : UInt8) : List UInt8 :=
  [tagCancelReplace, 1, 0, 0, 0, 0, 0, 0, 0, 1, 0, 0, 0, 0, 0, 0, 0, price, 0, 0, 0, 0, 0, 0, 0,
    1, 0, 0, 0, 0, 0, 0, 0]

/-- An amend to another price, then a snapshot. -/
theorem no_zero_price_rests_amend :
    accepted [sellFrame, amendFrame 90, [tagSnapshot]] =
      [.newOrder 1 1 .sell 100 5 .limit .gtc 0, .cancelReplace 1 1 90 1, .snapshot] ∧
    ∃ s evss, (System.new .default).runFrom .release (accepted [sellFrame, amendFrame 90, [tagSnapshot]]) = .ok (s, evss) ∧
      (∀ n ∈ s.engine.book.nodes, n.price ≠ 0) ∧ s.engine.book.lastTrade ≠ some 0 :=
  ⟨by decide +kernel, no_zero_price_rests .default _ (by decide +kernel)⟩

/-- **An amend to price zero is accepted and rests, and the next snapshot panics.** -/
theorem amend_rests_zero_price :
    accepted [sellFrame, amendFrame 0, [tagSnapshot]] =
      [.newOrder 1 1 .sell 100 5 .limit .gtc 0, .cancelReplace 1 1 0 1, .snapshot] ∧
    (∃ s evss, (System.new .default).runFrom .release (accepted [sellFrame, amendFrame 0]) = .ok (s, evss) ∧
      ∃ n ∈ s.engine.book.nodes, n.price = 0) ∧
    (System.new .default).runFrom .release (accepted [sellFrame, amendFrame 0, [tagSnapshot]]) =
      .error Sim.zeroPricePanic := by
  refine ⟨by decide +kernel, ?_, by rfl⟩
  obtain ⟨⟨s, evss⟩, hrun, hzero⟩ := exists_ok_of_decide (x := (System.new .default).runFrom .release
    (accepted [sellFrame, amendFrame 0])) (p := fun v => ∃ n ∈ v.1.engine.book.nodes, n.price = 0) (by decide +kernel)
  exact ⟨s, evss, hrun, hzero⟩

end MatchingEngine
