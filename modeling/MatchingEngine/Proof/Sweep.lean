import MatchingEngine.Proof.Sim
import MatchingEngine.Ref.Sweep

/-!
# The loops over the opposite side

`sweep` and `stp_clear_crossing_self_orders` follow the reference model: each turn
looks up the best level again and handles its head, which is the first order of the
opposite list.

* `Sim.sweep`: `sweep` is the fold over the crossing prefix.
* `Sim.stpClear`: the PostOnly check cancels the own prefix of the crossing orders.
-/

namespace MatchingEngine

namespace Sim

variable {P : Profile} {N : ℕ∞} {b : Book} {r : Ref} {a i : ℕ} {s : Side} {limit q : ℕ}

/-- The best opposite price crosses. -/
theorem crossing_some (h : Sim P N b r) {o : Order} {l : List Order} (hc : r.side s.opposite = o :: l)
    (hx : s.crosses limit o.price) : b.crossingPrice s limit = some o.price := by
  rw [h.crossingPrice, hc]
  simp [hx]

theorem crossing_none (h : Sim P N b r) (hnil : r.crossing s limit = []) : b.crossingPrice s limit = none := by
  rw [h.crossingPrice]
  rw [Ref.crossing_eq_nil] at hnil
  cases hc : r.side s.opposite with
  | nil => rfl
  | cons o l =>
    have hx := hnil o l hc
    simp [hx]

/-- An order of a swept book is removed after its trade price is noted. -/
theorem unlink_traded (h : Sim P N b r) {x : ℕ} {n : Node} (hn : b.arena.get x = some n) (t : Option ℕ) :
    ∃ b', Book.unlink P { b with lastTrade := t } x = .ok b' ∧
      Sim P N b' { r.remove n.side n.order with lastTrade := t } := by
  obtain ⟨b', hb', hs⟩ := (h.setLastTrade t).unlink (x := x) (n := n) hn
  refine ⟨b', hb', ?_⟩
  have he : Ref.remove { r with lastTrade := t } n.side n.order =
      { r.remove n.side n.order with lastTrade := t } := by
    cases n.side <;> rfl
  rw [← he]
  exact hs

theorem reduce_traded (h : Sim P N b r) {x : ℕ} {n : Node} (hn : b.arena.get x = some n) {f : ℕ}
    (hf : f < n.qty) (t : Option ℕ) :
    ∃ b', Book.reduceRestingQty P { b with lastTrade := t } x n.side n.price f = .ok b' ∧
      Sim P N b' { r.setQty n.side n.key (n.qty - f) with lastTrade := t } := by
  obtain ⟨b', hb', hs⟩ := (h.setLastTrade t).reduce (x := x) (n := n) hn hf
  refine ⟨b', hb', ?_⟩
  have he : Ref.setQty { r with lastTrade := t } n.side n.key (n.qty - f) =
      { r.setQty n.side n.key (n.qty - f) with lastTrade := t } := by
    cases n.side <;> rfl
  rw [← he]
  exact hs

/-- The loop inside a level, from any level price at least as good as everything left. -/
def LoopOK (P : Profile) (N : ℕ∞) (a i : ℕ) (s : Side) (limit : ℕ) (r : Ref) (q : ℕ) (res : Ref × ℕ × List Event) :
    Prop :=
  ∀ b fuel lp, Sim P N b r → (∀ o ∈ r.side s.opposite, s.opposite.better lp o.price) → s.crosses limit lp →
    3 * (r.side s.opposite).length + 2 ≤ fuel →
    ∃ b', Book.sweepLoop P a i s limit fuel (some lp) b q = .ok (b', res.2) ∧ Sim P N b' res.1

/-- The level is used up: the loop goes back for the next best one. -/
theorem loop_leave (h : Sim P N b r) {fuel lp : ℕ} (hq : 0 < q) (hp : ∀ o ∈ r.side s.opposite, o.price ≠ lp) :
    Book.sweepLoop P a i s limit (fuel + 1) (some lp) b q = Book.sweepLoop P a i s limit fuel none b q := by
  rw [Book.sweepLoop, if_neg hq.ne', h.level_none hp]

/-- From any level price, the loop reaches the head of the first order's level. -/
theorem loop_reach (h : Sim P N b r) {o : Order} {l : List Order} {fuel lp : ℕ}
    (hc : r.side s.opposite = o :: l) (hx : s.crosses limit o.price) (hq : 0 < q)
    (hlp : ∀ o ∈ r.side s.opposite, s.opposite.better lp o.price) (hfuel : 3 * l.length + 5 ≤ fuel) :
    ∃ fuel', 3 * l.length + 3 ≤ fuel' ∧ Book.sweepLoop P a i s limit fuel (some lp) b q =
      Book.sweepLoop P a i s limit fuel' (some o.price) b q := by
  by_cases hp : o.price = lp
  · exact ⟨fuel, by omega, by rw [hp]⟩
  · obtain ⟨f, rfl⟩ : ∃ f, fuel = f + 2 := ⟨fuel - 2, by omega⟩
    refine ⟨f, by omega, ?_⟩
    -- nothing rests at `lp`: the first order is strictly behind it, the others behind the first
    have hne : ∀ o' ∈ r.side s.opposite, o'.price ≠ lp := by
      intro o' ho' he
      have hsort := h.wf.sorted s.opposite
      rw [hc, List.pairwise_cons] at hsort
      have hbest : s.opposite.better o.price o'.price := by
        rw [hc] at ho'
        rcases List.mem_cons.1 ho' with rfl | ho'
        · exact s.opposite.better_refl _
        · exact hsort.1 o' ho'
      exact hp (s.opposite.better_antisymm _ _ (he ▸ hbest) (hlp o (Ref.mem_of_cons hc)))
    rw [loop_leave h hq hne, Book.sweepLoop, if_pos hq, h.crossing_some hc hx]

/-- The prices left are no better than the one just traded. -/
theorem tail_better (h : r.WF) {o : Order} {l : List Order} (hc : r.side s = o :: l) :
    ∀ o' ∈ l, s.better o.price o'.price := by
  have hsort := h.sorted s
  rw [hc, List.pairwise_cons] at hsort
  exact hsort.1

theorem loop_ok (h : r.WF) : LoopOK P N a i s limit r q (r.sweep a i s limit q) := by
  -- the loop takes one turn for each case of the sweep, and up to two more to leave a level and to stop
  refine h.sweep_induct (motive := LoopOK P N a i s limit) a i s limit ?_ ?_ ?_ ?_ q
  · -- nothing more to match
    intro r q h hstop b fuel lp hs hlp hx hfuel
    obtain ⟨f, rfl⟩ : ∃ f, fuel = f + 2 := ⟨fuel - 2, by omega⟩
    refine ⟨b, ?_, hs⟩
    by_cases hq : q = 0
    · rw [hq, Book.sweepLoop, if_pos rfl]
    · have hnil := hstop.resolve_left hq
      have hne : ∀ o ∈ r.side s.opposite, o.price ≠ lp := by
        intro o ho he
        cases hc : r.side s.opposite with
        | nil => rw [hc] at ho; simp at ho
        | cons o' l' =>
          apply Ref.crossing_eq_nil.1 hnil o' l' hc
          refine s.crosses_of_better ?_ (he ▸ hx)
          rw [hc] at ho
          rcases List.mem_cons.1 ho with rfl | ho
          · exact s.opposite.better_refl _
          · exact tail_better h hc o ho
      rw [loop_leave hs (by omega) hne, Book.sweepLoop, if_pos (by omega), hs.crossing_none hnil]
  · -- an own order
    intro r q o l r' q' evs h hc hx hq ha ih b fuel lp hs hlp _ hfuel
    rw [hc, List.length_cons] at hfuel
    obtain ⟨f, hf, he⟩ := hs.loop_reach (a := a) (i := i) hc hx hq hlp (by omega)
    obtain ⟨f, rfl⟩ : ∃ g, f = g + 1 := ⟨f - 1, by omega⟩
    obtain ⟨x, n, hlev, hn, hns, rfl⟩ := hs.level_head hc
    obtain ⟨b₁, hb₁, hs₁⟩ := hs.unlink hn
    rw [hns] at hs₁
    have hl := h.remove_head hc
    obtain ⟨b₂, hb₂, hs₂⟩ := ih b₁ f n.order.price hs₁ (by rw [hl]; exact tail_better h hc) hx (by rw [hl]; omega)
    refine ⟨b₂, ?_, hs₂⟩
    rw [he, Book.sweepLoop, if_neg hq.ne', hlev]
    have hacc : n.account = a := ha
    simp only [hn, expect_some, bind, Except.bind, if_pos hacc, hb₁, hb₂, pure, Except.pure]
    rfl
  · -- a foreign order, filled whole
    intro r q o l r' q' evs h hc hx hq ha hle ih b fuel lp hs hlp _ hfuel
    rw [hc, List.length_cons] at hfuel
    obtain ⟨f, hf, he⟩ := hs.loop_reach (a := a) (i := i) hc hx hq hlp (by omega)
    obtain ⟨f, rfl⟩ : ∃ g, f = g + 1 := ⟨f - 1, by omega⟩
    obtain ⟨x, n, hlev, hn, hns, rfl⟩ := hs.level_head hc
    obtain ⟨b₁, hb₁, hs₁⟩ := hs.unlink_traded hn (some n.price)
    rw [hns] at hs₁
    have hl : Ref.side { r.remove s.opposite n.order with lastTrade := some n.order.price } s.opposite = l := by
      rw [Ref.withTrade_side, h.remove_head hc]
    obtain ⟨b₂, hb₂, hs₂⟩ := ih b₁ f n.order.price hs₁ (by rw [hl]; exact tail_better h hc) hx
      (by rw [hl]; omega)
    refine ⟨b₂, ?_, hs₂⟩
    have hacc : ¬ n.account = a := ha
    have hmin : min q n.qty = n.qty := Nat.min_eq_right hle
    have hb₂' : Book.sweepLoop P a i s limit f (some n.order.price) b₁ (q - n.qty) = .ok (b₂, q', evs) := hb₂
    rw [he, Book.sweepLoop, if_neg hq.ne', hlev]
    simp only [hn, expect_some, bind, Except.bind, if_neg hacc, hmin, if_true, hb₁, hb₂', pure, Except.pure]
    rfl
  · -- a foreign order, filled in part
    intro r q o l h hc hx hq ha hlt b fuel lp hs hlp _ hfuel
    rw [hc, List.length_cons] at hfuel
    obtain ⟨f, hf, he⟩ := hs.loop_reach (a := a) (i := i) hc hx hq hlp (by omega)
    obtain ⟨f, rfl⟩ : ∃ g, f = g + 2 := ⟨f - 2, by omega⟩
    obtain ⟨x, n, hlev, hn, hns, rfl⟩ := hs.level_head hc
    obtain ⟨b₁, hb₁, hs₁⟩ := hs.reduce_traded hn hlt (some n.price)
    rw [hns] at hs₁ hb₁
    refine ⟨b₁, ?_, hs₁⟩
    have hacc : ¬ n.account = a := ha
    have hlt' : q < n.qty := hlt
    have hmin : min q n.qty = q := Nat.min_eq_left hlt'.le
    have hb₁' : Book.reduceRestingQty P { b with lastTrade := some n.price } x s.opposite n.order.price q =
      .ok b₁ := hb₁
    rw [he, Book.sweepLoop, if_neg hq.ne', hlev]
    simp only [hn, expect_some, bind, Except.bind, if_neg hacc, hmin, if_neg hlt'.ne, hb₁', Nat.sub_self,
      Book.sweepLoop, if_true, pure, Except.pure]
    rfl

/-- **`sweep` is the fold over the crossing prefix.** -/
theorem sweep (h : Sim P N b r) (a i : ℕ) (s : Side) (limit q : ℕ) :
    ∃ b', b.sweep P a i s limit q = .ok (b', (r.sweep a i s limit q).2) ∧
      Sim P N b' (r.sweep a i s limit q).1 := by
  have hlen := h.length_le s.opposite
  unfold Book.sweep
  rw [Book.sweepLoop]
  by_cases hq : q = 0
  · rw [hq, if_neg (by omega), Ref.sweep_zero]
    exact ⟨b, rfl, h⟩
  · rw [if_pos (by omega)]
    by_cases hnil : r.crossing s limit = []
    · rw [h.crossing_none hnil, Ref.sweep_nil hnil]
      exact ⟨b, rfl, h⟩
    · obtain ⟨o, l, hc, hx⟩ := Ref.crossing_ne_nil hnil
      rw [h.crossing_some hc hx]
      refine loop_ok h.wf b _ o.price h ?_ hx (by omega)
      rw [hc]
      intro o' ho'
      rcases List.mem_cons.1 ho' with rfl | ho'
      · exact s.opposite.better_refl _
      · exact tail_better h.wf hc o' ho'

/-- The loop of the PostOnly check, with enough fuel for the orders left. -/
theorem stpLoop_ok (h : r.WF) :
    ∀ b fuel, Sim P N b r → (r.side s.opposite).length + 1 ≤ fuel →
      ∃ b', Book.stpClearLoop P a s limit fuel b = .ok (decide (∃ o ∈ r.crossing s limit, o.account ≠ a), b',
          (r.ownPrefix a s limit).map (fun o => .cancelled o.account o.id)) ∧
        Sim P N b' (r.clearOwn a s limit) := by
  refine h.clear_induct (motive := fun r r' own => ∀ b fuel, Sim P N b r → (r.side s.opposite).length + 1 ≤ fuel →
    ∃ b', Book.stpClearLoop P a s limit fuel b = .ok (decide (∃ o ∈ r.crossing s limit, o.account ≠ a), b',
      own.map (fun o => .cancelled o.account o.id)) ∧ Sim P N b' r') a s limit ?_ ?_
  · -- the first crossing order, if any, is foreign
    intro r h hfor b fuel hs hfuel
    obtain ⟨f, rfl⟩ : ∃ f, fuel = f + 1 := ⟨fuel - 1, by omega⟩
    refine ⟨b, ?_, hs⟩
    by_cases hnil : r.crossing s limit = []
    · rw [Book.stpClearLoop, hs.crossing_none hnil, hnil]
      simp
    · obtain ⟨o, l, hc, hx⟩ := Ref.crossing_ne_nil hnil
      obtain ⟨x, n, hlev, hn, hns, rfl⟩ := hs.level_head hc
      have hacc : ¬ n.account = a := hfor _ _ hc hx
      have hex : ∃ o ∈ r.crossing s limit, o.account ≠ a := by
        rw [Ref.crossing_cons hc hx]
        exact ⟨n.order, List.mem_cons_self, hacc⟩
      rw [Book.stpClearLoop, hs.crossing_some hc hx]
      simp only [hlev, hn, expect_some, bind, Except.bind, if_neg hacc, pure, Except.pure, decide_eq_true hex,
        List.map_nil]
  · intro r o l r' own h hc hx ha ih b fuel hs hfuel
    rw [hc, List.length_cons] at hfuel
    obtain ⟨f, rfl⟩ : ∃ f, fuel = f + 1 := ⟨fuel - 1, by omega⟩
    obtain ⟨x, n, hlev, hn, hns, rfl⟩ := hs.level_head hc
    obtain ⟨b₁, hb₁, hs₁⟩ := hs.unlink hn
    rw [hns] at hs₁
    obtain ⟨b₂, hb₂, hs₂⟩ := ih b₁ f hs₁ (by rw [h.remove_head hc]; omega)
    refine ⟨b₂, ?_, hs₂⟩
    have hacc : n.account = a := ha
    -- the cancelled order is no foreign one
    have hex : (∃ o ∈ r.crossing s limit, o.account ≠ a) ↔
        ∃ o ∈ (r.remove s.opposite n.order).crossing s limit, o.account ≠ a := by
      rw [h.crossing_head hc hx]
      simp [ha]
    rw [Book.stpClearLoop, hs.crossing_some hc hx]
    simp only [hlev, hn, expect_some, bind, Except.bind, if_pos hacc, hb₁, hb₂, pure, Except.pure, List.map_cons, hex]
    rfl

/-- **The PostOnly check cancels the own prefix of the crossing orders**, and says whether a foreign
one is among them. -/
theorem stpClear (h : Sim P N b r) (a : ℕ) (s : Side) (limit : ℕ) :
    ∃ b', b.stpClearCrossingSelfOrders P a s limit = .ok (decide (∃ o ∈ r.crossing s limit, o.account ≠ a), b',
        (r.ownPrefix a s limit).map (fun o => .cancelled o.account o.id)) ∧
      Sim P N b' (r.clearOwn a s limit) :=
  stpLoop_ok h.wf b _ h (by have := h.length_le s.opposite; omega)

end Sim

end MatchingEngine
