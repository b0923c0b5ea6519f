import MatchingEngine.Main.Priority

/-!
# The kill switch drains

While the switch is engaged the gate turns away new orders and every amend that `modify`
would not carry out in place. What is left to a command is to shrink an order where it
stands, or to take orders out: the book drains.

* `LeftOf`, `Ref.Drained`: what a drain may leave of an order, of a state.
* `Did.drained`: a command that brings no order drains the state.
* `kill_switch_drains`: any stretch of commands under the switch.
-/

namespace MatchingEngine

/-- What a drain may leave of an order: the same order at the same price, with no more quantity. -/
def LeftOf (o' o : Order) : Prop := o'.key = o.key ∧ o'.price = o.price ∧ o'.qty ≤ o.qty

instance : Std.Refl LeftOf := ⟨fun _ => ⟨rfl, rfl, le_refl _⟩⟩

instance : IsTrans Order LeftOf :=
  ⟨fun _ _ _ h h' => ⟨h.1.trans h'.1, h.2.1.trans h'.2.1, h.2.2.trans h'.2.2⟩⟩

/-- Events by which an order enters the book or trades. -/
def Event.deals : Event → Bool
  | .accepted _ _ _ => true
  | .filled _ _ _ _ _ _ _ => true
  | .trade _ _ _ => true
  | _ => false

theorem Event.Quiet.deals {ev : Event} (h : ev.Quiet) : ev.deals = false := by
  cases ev with
  | accepted a i q => exact h.elim
  | filled a i s p q left st => exact h.elim
  | trade p q s => exact h.elim
  | _ => rfl

namespace Ref

/-- `r'` is what a drain may leave of `r`: of each side some orders, in the same priority. -/
structure Drained (r r' : Ref) : Prop where
  sides : ∀ s, List.SublistForall₂ LeftOf (r'.side s) (r.side s)
  lastTrade : r'.lastTrade = r.lastTrade

variable {r r' r'' : Ref} {c : Command} {evs : List Event} {w : Order → ℕ}

theorem Drained.refl (r : Ref) : r.Drained r := ⟨fun s => (List.Sublist.refl (r.side s)).sublistForall₂, rfl⟩

theorem Drained.trans (h : r.Drained r') (h' : r'.Drained r'') : r.Drained r'' :=
  ⟨fun s => IsTrans.trans _ _ _ (h'.sides s) (h.sides s), h'.lastTrade.trans h.lastTrade⟩

/-- Every order left was there. -/
theorem Drained.exists_of_mem (h : r.Drained r') {o' : Order} (ho : o' ∈ r'.orders) : ∃ o ∈ r.orders, LeftOf o' o := by
  obtain ⟨s, ho⟩ := (r'.mem_orders o').1 ho
  obtain ⟨o, hos, hleft⟩ := (h.sides s).exists_of_mem ho
  exact ⟨o, r.side_sub_orders s o hos, hleft⟩

/-- A sum over the resting orders does not rise. -/
theorem Drained.total_le (h : r.Drained r') (hw : Shrinks w) : r'.total w ≤ r.total w := by
  have hleft : ∀ o' o, LeftOf o' o → w o' ≤ w o := by
    rintro ⟨a', i', p', q'⟩ ⟨a, i, p, q⟩ ⟨hk, hp, hq⟩
    obtain ⟨rfl, rfl⟩ : a' = a ∧ i' = i := Prod.mk.inj hk
    obtain rfl : p' = p := hp
    exact hw ⟨a', i', p', q⟩ q' hq
  have hbuy := (h.sides .buy).sum_le hleft
  have hsell := (h.sides .sell).sum_le hleft
  rw [total_sides w r .buy, total_sides w r' .buy]
  exact Nat.add_le_add hbuy hsell

/-- No account has more orders than before. -/
theorem Drained.slots_le (h : r.Drained r') (hr : r.WF) (hr' : r'.WF) (a : ℕ) :
    (r'.slots a).length ≤ (r.slots a).length := by
  -- slots are distinct, so it is enough that none is new
  refine ((hr'.slots_nodup a).subperm ?_).length_le
  intro i hi
  obtain ⟨o', ho', hk'⟩ := (hr'.slots_mem a i).1 hi
  obtain ⟨o, ho, hleft⟩ := h.exists_of_mem ho'
  exact (hr.slots_mem a i).2 ⟨o, ho, hleft.1.symm.trans hk'⟩

/-- Orders that only leave. -/
theorem Drained.of_sublist (hs : ∀ s, (r'.side s).Sublist (r.side s)) (ht : r'.lastTrade = r.lastTrade) :
    r.Drained r' :=
  ⟨fun s => (hs s).sublistForall₂, ht⟩

/-- An order that shrinks in its place. -/
theorem WF.drained_setQty (h : r.WF) {s : Side} {o : Order} (ho : o ∈ r.side s) {q : ℕ} (hq : q ≤ o.qty) :
    r.Drained (r.setQty s o.key q) := by
  refine ⟨fun s' => ?_, setQty_lastTrade _ _ _ _⟩
  rw [setQty_side]
  by_cases hs : s' = s
  · rw [if_pos hs, hs]
    -- nothing moves within the side: compare it with itself, order by order
    refine List.sublistForall₂_map_left_iff.2 (List.sublistForall₂_iff.2 ⟨r.side s, ?_, List.Sublist.refl _⟩)
    refine List.forall₂_same.2 fun x hx => ?_
    by_cases hk : x.key = o.key
    · obtain rfl := key_inj_of_nodup (h.side_keys s) hx ho hk
      rw [if_pos rfl]
      exact ⟨rfl, rfl, hq⟩
    · rw [if_neg hk]
      exact ⟨rfl, rfl, le_refl _⟩
  · rw [if_neg hs]
    exact (List.Sublist.refl _).sublistForall₂

/-- Commands that commit to nothing new: no new orders, and amends of resting orders in place only. -/
def Retreats (r : Ref) : Command → Prop
  | .newOrder _ _ _ _ _ _ _ _ => False
  | .cancelReplace a i p q => ∀ s o, r.find (a, i) = some (s, o) → p = o.price ∧ q ≤ o.qty
  | _ => True

/-- **A command that commits to nothing new drains the state.** -/
theorem Did.drained (hd : Did r c r' evs) (h : r.WF) (hc : r.Retreats c) :
    r.Drained r' ∧ ∀ ev ∈ evs, ev.deals = false := by
  cases hd with
  | idle quiet _ => exact ⟨Drained.refl r, fun ev hev => (quiet ev hev).deals⟩
  | entered limit rests fresh own => exact hc.elim
  | posted fresh clear => exact hc.elim
  | refused fresh => exact hc.elim
  | amended found pos le => exact ⟨h.drained_setQty (find_some found).1 le, by simp [Event.deals]⟩
  | requeued found pos changes => exact absurd (hc _ _ found) changes
  | cancelled found =>
    refine ⟨Drained.of_sublist (fun s => r.remove_side_sublist _ s _) (remove_lastTrade _ _ _), ?_⟩
    simp [Event.deals]
  | emptied =>
    refine ⟨Drained.of_sublist (fun s => ?_) (h.foldl_removeKey _ _).2.1, ?_⟩
    · rw [h.massCancel_side]
      exact List.filter_sublist
    · intro ev hev
      obtain ⟨i, -, rfl⟩ := List.mem_map.1 hev
      rfl

end Ref

/-- `b'` is what a drain may leave of `b`. -/
structure Book.Drained (b b' : Book) : Prop where
  /-- On each side some of the orders, in the same priority, each at its price and with no more quantity. -/
  orders : ∀ side, List.SublistForall₂ LeftOf (b'.ordersOf side) (b.ordersOf side)
  lastTrade : b'.lastTrade = b.lastTrade
  openOrders : ∀ a, b'.accountOpenOrderCount a ≤ b.accountOpenOrderCount a
  /-- The exact notional of every account, and the cached one if it has not wrapped. -/
  notional : ∀ a, b'.grossNotional a ≤ b.grossNotional a ∧
    (b.grossNotional a < 2 ^ 128 → b'.accountNotional a ≤ b.accountNotional a)

section

variable {P : Profile} {N : ℕ∞} {b b' : Book} {r r' : Ref} {c : Command}

/-- A drained state, read off the books. -/
theorem Sim.drained (h : Sim P N b r) (h' : Sim P N b' r') (hP : P.Faithful) (hd : r.Drained r') : b.Drained b' := by
  have hle : ∀ a, r'.notional a ≤ r.notional a := by
    intro a
    rw [Ref.notional_eq_total, Ref.notional_eq_total]
    exact hd.total_le (Ref.weigh_shrinks a)
  refine ⟨fun side => ?_, ?_, fun a => ?_, fun a => ?_⟩
  · rw [h.ordersOf, h'.ordersOf]
    exact hd.sides side
  · rw [h.lastTrade, h'.lastTrade]
    exact hd.lastTrade
  · rw [h.openOrderCount, h'.openOrderCount]
    exact hd.slots_le h.wf h'.wf a
  · rw [h.grossNotional, h'.grossNotional]
    refine ⟨hle a, fun hlt => ?_⟩
    rw [h.accountNotional hP hlt, h'.accountNotional hP (lt_of_le_of_lt (hle a) hlt)]
    exact hle a

/-- What passes the switch commits to nothing new: the gate and `modify` agree on which amends stay in place. -/
theorem Sim.retreats (h : Sim P N b r) (hk : RiskState.killSwitchCheck c b = none) : r.Retreats c := by
  cases c with
  | newOrder a i s p q k t ts => simp [RiskState.killSwitchCheck] at hk
  | cancelReplace a i p q =>
    intro s o hf
    refine RiskState.killSwitchCheck_amend hk ?_
    rw [h.restingOrderSnapshot, hf]
    rfl
  | _ => trivial

end

namespace System

variable {P : Profile} {s s' : System} {c : Command} {evs : List (ℕ × Event)} {r : Ref}

/-- The same state with the switch turned on or off. -/
def withSwitch (s : System) (engaged : Bool) : System := { s with risk := { s.risk with killSwitchEngaged := engaged } }

/-- **One command under the switch.** -/
theorem drained_step (hP : P.Total) (h : Sim P ⊤ s.engine.book r) (hc : c.Decodable)
    (hon : s.risk.killSwitchEngaged = true) (hstep : s.processCommand P c = .ok (s', evs)) :
    (∃ r', Sim P ⊤ s'.engine.book r' ∧ r.Drained r') ∧ ∀ x ∈ evs, x.2.deals = false := by
  rcases processCommand_gate hstep with ⟨ev, hg, he, rfl⟩ | ⟨hg, evs', ha, rfl⟩
  · obtain ⟨-, hrej, -⟩ := RiskState.preApplyCheck_cases hg
    obtain ⟨a, i, reason, rfl⟩ := hrej ev rfl
    exact ⟨⟨r, he ▸ h, Ref.Drained.refl r⟩, by simp [Event.deals]⟩
  · obtain ⟨-, -, hpass⟩ := RiskState.preApplyCheck_cases hg
    obtain ⟨rfl, hs'⟩ := h.applied hP hc ha
    obtain ⟨hd, hquiet⟩ := (r.did P c).drained h.wf (h.retreats ((hpass rfl).1 hon))
    refine ⟨⟨_, hs', hd⟩, ?_⟩
    intro x hx
    obtain ⟨ev, hev, rfl⟩ := List.mem_map.1 hx
    -- a top-of-book update may follow, and is no deal
    rcases r.apply_emits P c with he | ⟨bid, ask, he⟩
    · exact hquiet ev (he ▸ hev)
    · rw [he, List.mem_append, List.mem_singleton] at hev
      rcases hev with hev | rfl
      · exact hquiet ev hev
      · rfl

/-- **A stretch of commands under the switch.** -/
theorem drained_run (hP : P.Total) (h : Sim P ⊤ s.engine.book r) {cmds : List Command} (hcmds : ∀ c ∈ cmds, c.Decodable)
    (hon : Along (processCommand P) (fun s _ => s.risk.killSwitchEngaged = true) s cmds)
    {evss : List (List (ℕ × Event))} (hrun : s.runFrom P cmds = .ok (s', evss)) :
    (∃ r', Sim P ⊤ s'.engine.book r' ∧ r.Drained r') ∧ ∀ evs ∈ evss, ∀ x ∈ evs, x.2.deals = false := by
  refine run_outputs (fun s : System => ∃ r', Sim P ⊤ s.engine.book r' ∧ r.Drained r') ?_
    ⟨r, h, Ref.Drained.refl r⟩ (hon.and_forall hcmds) hrun
  rintro s c s' evs ⟨r₁, hs, hd⟩ ⟨hc, hon⟩ hstep
  obtain ⟨⟨r₂, hs', hd'⟩, hquiet⟩ := drained_step hP hs hc hon hstep
  exact ⟨⟨r₂, hs', hd.trans hd'⟩, hquiet⟩

/-- The switch is not looked at when orders are only taken out. -/
theorem processCommand_withSwitch (hc : (∃ a i, c = .cancelOrder a i) ∨ ∃ a, c = .massCancel a) (engaged : Bool) :
    (s.withSwitch engaged).processCommand P c =
      (s.processCommand P c).map (fun res => (res.1.withSwitch engaged, res.2)) := by
  have hpass : ∀ (risk : RiskState) (b : Book), risk.preApplyCheck P c b = .ok (risk, none) := by
    intro risk b
    rcases hc with ⟨a, i, rfl⟩ | ⟨a, rfl⟩
    · simp only [RiskState.preApplyCheck, RiskState.killSwitchCheck, ite_self]
    · simp only [RiskState.preApplyCheck, RiskState.killSwitchCheck, ite_self]
  unfold processCommand
  simp only [withSwitch, hpass, bind, Except.bind, pure, Except.pure]
  cases s.engine.apply P c with
  | error e => rfl
  | ok res => rfl

end System

/-- **The kill switch drains.** Take any stretch of commands that are processed while the switch is engaged,
from any reachable state. None of its events is an acceptance, a fill or a trade; of the resting orders some
are left, in the same priority, at their prices and with no more quantity; no account's open orders or
notional have grown. Every cancel and every mass cancel does what it does with the switch off. -/
theorem kill_switch_drains {P : Profile} (hP : P.Total) (hF : P.Faithful) (config : RiskConfig) {cmds : List Command}
    (hcmds : ∀ c ∈ cmds, c.Decodable) {s : System} {evss : List (List (ℕ × Event))}
    (hrun : (System.new config).runFrom P cmds = .ok (s, evss)) {stretch : List Command}
    (hstretch : ∀ c ∈ stretch, c.Decodable)
    (hon : Along (System.processCommand P) (fun s _ => s.risk.killSwitchEngaged = true) s stretch)
    {s' : System} {evss' : List (List (ℕ × Event))} (hdrain : s.runFrom P stretch = .ok (s', evss')) :
    (∀ evs ∈ evss', ∀ x ∈ evs, x.2.deals = false) ∧ s.engine.book.Drained s'.engine.book ∧
    ∀ c, ((∃ a i, c = .cancelOrder a i) ∨ ∃ a, c = .massCancel a) →
      s'.processCommand P c = ((s'.withSwitch false).processCommand P c).map
        (fun res => (res.1.withSwitch s'.risk.killSwitchEngaged, res.2)) := by
  obtain ⟨r, hs⟩ := System.sim_of_run hP hcmds hrun
  obtain ⟨⟨r', hs', hd⟩, hquiet⟩ := System.drained_run hP hs hstretch hon hdrain
  refine ⟨hquiet, hs.drained hs' hF hd, fun c hc => ?_⟩
  rw [← System.processCommand_withSwitch hc]
  rfl

/-- Under the switch a new order and a repricing are turned away; an amend down and a cancel go through. -/
theorem kill_switch_drains_amend :
    ∃ s evss s' evss', (System.new .default).runFrom .release
        [.newOrder 1 1 .sell 100 5 .limit .gtc 0, .newOrder 1 2 .sell 100 4 .limit .gtc 0,
         .newOrder 2 1 .sell 101 3 .limit .gtc 0, .killSwitch true] = .ok (s, evss) ∧
      s.runFrom .release [.newOrder 3 1 .buy 100 1 .limit .gtc 0, .cancelReplace 1 1 100 2, .cancelReplace 1 2 101 4,
        .cancelOrder 2 1, .snapshot, .killSwitch false] = .ok (s', evss') ∧
      s.engine.book.ordersOf .sell = [⟨1, 1, 100, 5⟩, ⟨1, 2, 100, 4⟩, ⟨2, 1, 101, 3⟩] ∧
      s'.engine.book.ordersOf .sell = [⟨1, 1, 100, 2⟩, ⟨1, 2, 100, 4⟩] ∧
      s.engine.book.Drained s'.engine.book ∧ ∀ evs ∈ evss', ∀ x ∈ evs, x.2.deals = false := by
  obtain ⟨⟨s, evss⟩, hrun, hon, hbefore, hok⟩ := exists_ok_of_decide (x := (System.new .default).runFrom .release
      [.newOrder 1 1 .sell 100 5 .limit .gtc 0, .newOrder 1 2 .sell 100 4 .limit .gtc 0,
       .newOrder 2 1 .sell 101 3 .limit .gtc 0, .killSwitch true])
    (p := fun v => Along (System.processCommand .release) (fun s _ => s.risk.killSwitchEngaged = true) v.1
        [.newOrder 3 1 .buy 100 1 .limit .gtc 0, .cancelReplace 1 1 100 2, .cancelReplace 1 2 101 4,
          .cancelOrder 2 1, .snapshot, .killSwitch false] ∧
      v.1.engine.book.ordersOf .sell = [⟨1, 1, 100, 5⟩, ⟨1, 2, 100, 4⟩, ⟨2, 1, 101, 3⟩] ∧
      (v.1.runFrom .release [.newOrder 3 1 .buy 100 1 .limit .gtc 0, .cancelReplace 1 1 100 2, .cancelReplace 1 2 101 4,
          .cancelOrder 2 1, .snapshot, .killSwitch false]).toOption.map (fun w => w.1.engine.book.ordersOf .sell) =
        some [⟨1, 1, 100, 2⟩, ⟨1, 2, 100, 4⟩]) (by decide +kernel)
  obtain ⟨⟨s', evss'⟩, hdrain, hafter⟩ := exists_ok_of_map_toOption hok
  obtain ⟨hquiet, hleft, -⟩ := kill_switch_drains Profile.release_total Profile.release_faithful .default (by decide)
    hrun (by decide) hon hdrain
  exact ⟨s, evss, s', evss', hrun, hdrain, hbefore, hafter, hleft, hquiet⟩

end MatchingEngine
