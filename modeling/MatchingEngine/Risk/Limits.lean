import MatchingEngine.Risk.Gate
import MatchingEngine.Ref.Total
import MatchingEngine.Main.Refinement

/-!
# What the gate lets through

The gate checks new orders: their price is banded, their account's notional capped. An
amend passes through none of that: `modify` rests whatever price and quantity it is
given. What an amend has to respect for the limits to hold is stated here as conditions
on the state before it (`AmendWithinCap`, `AmendPriced`).

* `Sim.grossNotional`, `Sim.restingQty`: exact sums over the live nodes.
* `Sim.brought`: what an order that comes to rest has passed.
* `Sim.capped`, `Sim.priced`: one command that went through the gate.
-/

namespace MatchingEngine

namespace Profile

/-- A profile whose stored sums are exact while they are in range. -/
structure Faithful (P : Profile) : Prop where
  u64 : ∀ n : ℕ, n < 2 ^ 64 → P.u64.val n = some n
  u128 : ∀ n : ℕ, n < 2 ^ 128 → P.u128.val n = some n

theorem Faithful.store64 {P : Profile} (hP : P.Faithful) {n : ℕ} (hn : n < 2 ^ 64) : P.store64 (n : ℤ) = .ok n :=
  store64_ok (hP.u64 n hn)

theorem Faithful.store128 {P : Profile} (hP : P.Faithful) {n : ℕ} (hn : n < 2 ^ 128) : P.store128 (n : ℤ) = .ok n :=
  store128_ok (hP.u128 n hn)

theorem release_faithful : release.Faithful := by
  refine ⟨?_, ?_⟩
  · intro n hn
    show (Word.wrapping 64).val n = some n
    rw [Word.wrapping_val, Nat.mod_eq_of_lt hn]
  · intro n hn
    show (Word.wrapping 128).val n = some n
    rw [Word.wrapping_val, Nat.mod_eq_of_lt hn]

theorem dev_faithful : dev.Faithful := ⟨fun _ hn => Word.checked_val hn, fun _ hn => Word.checked_val hn⟩

end Profile

namespace Book

/-- Gross notional of an account: price times quantity over its resting orders, both sides. -/
def grossNotional (b : Book) (a : ℕ) : ℕ :=
  ((b.nodes.filter (fun n => n.account = a)).map (fun n => n.price * n.qty)).sum

/-- Quantity resting on a side at a price. -/
def restingQty (b : Book) (s : Side) (p : ℕ) : ℕ :=
  ((b.nodes.filter (fun n => n.side = s ∧ n.price = p)).map Node.qty).sum

theorem mem_nodes {b : Book} {n : Node} : n ∈ b.nodes ↔ ∃ x, b.arena.get x = some n := by
  unfold nodes
  rw [List.mem_filterMap]
  constructor
  · rintro ⟨v, hv, rfl⟩
    obtain ⟨x, hx⟩ := List.mem_iff_getElem?.1 hv
    exact ⟨x, by unfold Arena.get; rw [hx]; rfl⟩
  · rintro ⟨x, hx⟩
    exact ⟨some n, List.mem_iff_getElem?.2 ⟨x, Arena.slots_get hx⟩, rfl⟩

end Book

section Exact

variable {P : Profile} {N : ℕ∞} {b : Book} {r : Ref}

/-- The exact notional of an account is the state's. -/
theorem Sim.grossNotional (h : Sim P N b r) (a : ℕ) : b.grossNotional a = r.notional a := by
  unfold Ref.notional Book.grossNotional
  rw [← notionalIn_perm h.nodes_perm]
  unfold notionalIn
  rw [List.filter_map, List.map_map]
  rfl

/-- The live nodes of a side are the state's orders of that side. -/
theorem Sim.nodes_side (h : Sim P N b r) (s : Side) :
    ((b.nodes.filter (fun n => n.side = s)).map Node.order).Perm (r.side s) := by
  have hnd : (b.nodes.map Node.order).Nodup := by
    refine List.Nodup.of_map Order.key ?_
    rw [(h.nodes_perm.map Order.key).nodup_iff]
    exact h.wf.keys
  rw [List.perm_ext_iff_of_nodup (hnd.sublist (List.filter_sublist.map _)) (h.wf.side_keys s).of_map]
  intro o
  rw [List.mem_map]
  constructor
  · rintro ⟨n, hn, rfl⟩
    obtain ⟨hn, hs⟩ := List.mem_filter.1 hn
    obtain ⟨x, hx⟩ := Book.mem_nodes.1 hn
    have hs' : n.side = s := by simpa using hs
    exact hs' ▸ h.node hx
  · intro ho
    obtain ⟨x, n, hx, hs, hno⟩ := h.order_node ho
    exact ⟨n, List.mem_filter.2 ⟨Book.mem_nodes.2 ⟨x, hx⟩, decide_eq_true hs⟩, hno⟩

/-- The exact quantity at a level is the state's. -/
theorem Sim.restingQty (h : Sim P N b r) (s : Side) (p : ℕ) : b.restingQty s p = qtyAt (r.side s) p := by
  rw [← qtyAt_perm (h.nodes_side s)]
  unfold qtyAt Book.restingQty
  rw [List.filter_map, List.map_map, List.filter_filter]
  congr 1
  rw [show (Order.qty ∘ Node.order) = Node.qty from rfl]
  congr 1
  apply List.filter_congr
  intro n _
  rw [Bool.eq_iff_iff, Bool.and_eq_true, decide_eq_true_iff, decide_eq_true_iff]
  constructor
  · rintro ⟨hs, hp⟩
    exact ⟨decide_eq_true hp, hs⟩
  · rintro ⟨hp, hs⟩
    exact ⟨hs, of_decide_eq_true hp⟩

/-- A cached notional in range is the exact one. -/
theorem Sim.accountNotional (h : Sim P N b r) (hP : P.Faithful) {a : ℕ} (ha : r.notional a < 2 ^ 128) :
    b.accountNotional a = r.notional a :=
  Option.some.inj ((h.notional a).symm.trans (hP.u128 _ ha))

end Exact

namespace System

/-- The sum the gate compares with the cap, for an order that can rest, is in range. The gate gets that
far while the kill switch is off and the account has fewer orders open than it may. -/
def SumInRange (s : System) : Command → Prop
  | .newOrder a _ _ p q k t _ =>
    s.risk.killSwitchEngaged = false → k = .limit ∧ (t = .gtc ∨ t = .postOnly) →
      s.engine.book.accountOpenOrderCount a < s.risk.config.maxOpenOrders →
        s.engine.book.accountNotional a + p * q < 2 ^ 128
  | _ => True

instance (s : System) : DecidablePred s.SumInRange
  | .newOrder a _ _ p q k t _ => inferInstanceAs (Decidable
      (s.risk.killSwitchEngaged = false → k = .limit ∧ (t = .gtc ∨ t = .postOnly) →
        s.engine.book.accountOpenOrderCount a < s.risk.config.maxOpenOrders →
          s.engine.book.accountNotional a + p * q < 2 ^ 128))
  | .cancelOrder _ _ => .isTrue trivial
  | .cancelReplace _ _ _ _ => .isTrue trivial
  | .massCancel _ => .isTrue trivial
  | .killSwitch _ => .isTrue trivial
  | .snapshot => .isTrue trivial

/-- An amend of a resting order, while the kill switch is off, leaves its account's notional within
the cap: what the gate asks of a new order. -/
def AmendWithinCap (s : System) : Command → Prop
  | .cancelReplace a i p q =>
    s.risk.killSwitchEngaged = false →
      match s.engine.book.restingOrderSnapshot a i with
      | some (p₀, q₀) => s.engine.book.accountNotional a + p * q ≤ s.risk.config.maxNotional + p₀ * q₀
      | none => True
  | _ => True

/-- An amend of a resting order, while the kill switch is off, has a price. -/
def AmendPriced (s : System) : Command → Prop
  | .cancelReplace a i p _ =>
    s.risk.killSwitchEngaged = false → (s.engine.book.restingOrderSnapshot a i).isSome → p ≠ 0
  | _ => True

instance (s : System) : DecidablePred s.AmendPriced
  | .cancelReplace a i p _ => inferInstanceAs (Decidable
      (s.risk.killSwitchEngaged = false → (s.engine.book.restingOrderSnapshot a i).isSome → p ≠ 0))
  | .newOrder _ _ _ _ _ _ _ _ => .isTrue trivial
  | .cancelOrder _ _ => .isTrue trivial
  | .massCancel _ => .isTrue trivial
  | .killSwitch _ => .isTrue trivial
  | .snapshot => .isTrue trivial

instance (s : System) : DecidablePred s.AmendWithinCap
  | .cancelReplace a i p q =>
    haveI : Decidable (match s.engine.book.restingOrderSnapshot a i with
        | some (p₀, q₀) => s.engine.book.accountNotional a + p * q ≤ s.risk.config.maxNotional + p₀ * q₀
        | none => True) :=
      match s.engine.book.restingOrderSnapshot a i with
      | some (_, _) => Nat.decLe _ _
      | none => .isTrue trivial
    inferInstanceAs (Decidable (s.risk.killSwitchEngaged = false → _))
  | .newOrder _ _ _ _ _ _ _ _ => .isTrue trivial
  | .cancelOrder _ _ => .isTrue trivial
  | .massCancel _ => .isTrue trivial
  | .killSwitch _ => .isTrue trivial
  | .snapshot => .isTrue trivial

end System

section Step

variable {P : Profile} {N : ℕ∞} {s : System} {risk : RiskState} {r r' : Ref} {c : Command} {evs : List Event}

/-- What an order brought by a command that went through has passed: a new order the cap check, an
amend nothing but a kill switch that is off. -/
theorem Sim.brought (h : Sim P N s.engine.book r) (hgate : s.risk.preApplyCheck P c s.engine.book = .ok (risk, none))
    {o : Order} (hb : r.Brings c o) :
    (∃ i side p q t ts v, c = .newOrder o.account i side p q .limit t ts ∧ (t = .gtc ∨ t = .postOnly) ∧
      o.price = p ∧ o.qty ≤ q ∧ P.store128 ((s.engine.book.accountNotional o.account : ℤ) + (p * q : ℕ)) = .ok v ∧
      v ≤ s.risk.config.maxNotional) ∨
    ∃ p q x, c = .cancelReplace o.account o.id p q ∧ o.price = p ∧ o.qty ≤ q ∧ s.risk.killSwitchEngaged = false ∧
      (∃ side, r.find o.key = some (side, x)) ∧
      s.engine.book.restingOrderSnapshot o.account o.id = some (x.price, x.qty) := by
  obtain ⟨-, -, hpass⟩ := RiskState.preApplyCheck_cases hgate
  obtain ⟨hkill, hnew⟩ := hpass rfl
  cases c with
  | newOrder a i side p q k t ts =>
    obtain ⟨rfl, ht, -, hkey, hp, hq⟩ := hb
    obtain ⟨v, hv, hle⟩ := RiskState.newOrderCheck_limit (hnew a i side p q .limit t ts rfl)
    obtain ⟨rfl, rfl⟩ : o.account = a ∧ o.id = i := Prod.mk.inj hkey
    exact Or.inl ⟨o.id, side, p, q, t, ts, v, rfl, ht, hp, hq, hv, hle⟩
  | cancelReplace a i p q =>
    obtain ⟨⟨side, x, hf, hchg⟩, hkey, hp, hq⟩ := hb
    obtain ⟨rfl, rfl⟩ : o.account = a ∧ o.id = i := Prod.mk.inj hkey
    have hsnap : s.engine.book.restingOrderSnapshot o.account o.id = some (x.price, x.qty) := by
      rw [h.restingOrderSnapshot, hf]
      rfl
    refine Or.inr ⟨p, q, x, rfl, hp, hq, ?_, ⟨side, hf⟩, hsnap⟩
    -- an engaged switch lets only in-place amends through, and those bring nothing
    by_contra hk
    exact hchg (RiskState.killSwitchCheck_amend (hkill (by simpa using hk)) hsnap)
  | cancelOrder a i => exact hb.elim
  | massCancel a => exact hb.elim
  | killSwitch e => exact hb.elim
  | snapshot => exact hb.elim

/-- **A command that went through keeps every account within the cap**, if its sum is in range and
an amend respects the cap. -/
theorem Sim.capped (h : Sim P N s.engine.book r) (hP : P.Faithful)
    (hgate : s.risk.preApplyCheck P c s.engine.book = .ok (risk, none)) (hd : r.Did c r' evs)
    (hcap : ∀ a, r.notional a ≤ s.risk.config.maxNotional) (hsum : s.SumInRange c) (hamend : s.AmendWithinCap c) :
    ∀ a, r'.notional a ≤ s.risk.config.maxNotional := by
  have hexact : ∀ a, s.engine.book.accountNotional a = r.notional a := fun a =>
    h.accountNotional hP (lt_of_le_of_lt (hcap a) s.risk.config.maxNotional_lt)
  intro a
  have hcap := hcap a
  rw [Ref.notional_eq_total] at hcap ⊢
  -- a sum rises only by what the command brings
  rcases hd.total h.wf (Ref.weigh_shrinks a) with hle | ⟨o, hb, hle⟩
  · omega
  by_cases ha : o.account = a
  swap
  · -- someone else's order
    have hw : Ref.weigh a o = 0 := if_neg ha
    omega
  have hw : Ref.weigh a o = o.price * o.qty := if_pos ha
  rcases h.brought hgate hb with ⟨i, side, p, q, t, ts, v, rfl, ht, hp, hq, hv, hvle⟩ |
    ⟨p, q, x, rfl, hp, hq, hoff, ⟨side, hf⟩, hsnap⟩
  · obtain ⟨hoff, hcount⟩ := RiskState.preApplyCheck_new ht hgate
    have hrange := hsum hoff ⟨rfl, ht⟩ hcount
    have hstore : P.store128 ((s.engine.book.accountNotional o.account : ℤ) + (p * q : ℕ)) =
        .ok (s.engine.book.accountNotional o.account + p * q) :=
      Profile.store128_ok (by exact_mod_cast hP.u128 _ hrange)
    rw [hstore, Except.ok.injEq] at hv
    rw [hexact, Ref.notional_eq_total, ha] at hv
    have hmul : o.price * o.qty ≤ p * q := hp ▸ Nat.mul_le_mul_left _ hq
    omega
  · have hx := hamend hoff
    rw [hsnap] at hx
    simp only [hexact, Ref.notional_eq_total, ha] at hx
    have hshare : r.share (Ref.weigh a) o.key = x.price * x.qty := by
      unfold Ref.share
      rw [hf]
      have hxa : x.account = a := ((Prod.mk.inj (Ref.find_some hf).2).1).trans ha
      exact if_pos hxa
    have hmul : o.price * o.qty ≤ p * q := hp ▸ Nat.mul_le_mul_left _ hq
    omega

/-- **A command that went through brings no zero price**, if an amend has one. -/
theorem Sim.priced (h : Sim P N s.engine.book r)
    (hgate : s.risk.preApplyCheck P c s.engine.book = .ok (risk, none)) (hd : r.Did c r' evs)
    (hc : c.Decodable) (hz : r.NoZero) (hamend : s.AmendPriced c) : r'.NoZero := by
  refine hd.noZero h.wf hz (fun o hb => ?_)
  rcases h.brought hgate hb with ⟨i, side, p, q, t, ts, v, rfl, -, rfl, -⟩ | ⟨p, q, x, rfl, rfl, -, hoff, -, hsnap⟩
  · exact hc.2.2.2.2.2.2 rfl
  · exact hamend hoff (by rw [hsnap]; rfl)

end Step

end MatchingEngine
