import MatchingEngine.Proof.Abs

/-!
# Books and the states they stand for

`Sim P N b r`: the book `b` is well formed, stands for the reference state `r` and
has at most `N` slots. From here on the pointers are out of sight: each primitive of
the book is a change of `r`, each lookup a lookup in `r`.

* `Sim.unlink`, `Sim.rest`, `Sim.reduce`, `Sim.amend`: the changes.
* `Sim.lookup`: the order index.
* `Sim.best`, `Sim.level`: the best price of a side and the head of its level.
-/

namespace MatchingEngine

/-- The sums of a state can be stored, and it has at most `N` orders. -/
structure Fits (P : Profile) (N : ℕ∞) (r : Ref) : Prop where
  u64 : ∀ s p, (P.u64.val (qtyAt (r.side s) p : ℕ)).isSome
  u128 : ∀ a, (P.u128.val (r.notional a : ℕ)).isSome
  slots : (r.orders.length : ℕ∞) ≤ N

theorem Fits.of_total {P : Profile} (h : P.Total) (r : Ref) : Fits P ⊤ r :=
  ⟨fun _ _ => h.u64 _ (by omega), fun _ => h.u128 _ (by omega), le_top⟩

structure Sim (P : Profile) (N : ℕ∞) (b : Book) (r : Ref) : Prop where
  rep : ∃ R, Rep P b R
  abs : b.abs = r
  slots : (b.arena.slots.length : ℕ∞) ≤ N

namespace Sim

variable {P : Profile} {N : ℕ∞} {b : Book} {r : Ref} {x : ℕ} {n : Node}

theorem labels (h : Sim P N b r) : ∃ R, Rep P b R ∧ r = absOf b R := by
  obtain ⟨R, hR⟩ := h.rep
  exact ⟨R, hR, by rw [← h.abs, hR.abs_eq]⟩

theorem of_rep {R : Side → List Slotted} (h : Rep P b R) (hr : absOf b R = r)
    (hs : (b.arena.slots.length : ℕ∞) ≤ N) : Sim P N b r :=
  ⟨⟨R, h⟩, by rw [h.abs_eq, hr], hs⟩

/-- **A state some book stands for is well formed.** -/
theorem wf (h : Sim P N b r) : r.WF := by
  obtain ⟨R, hR, rfl⟩ := h.labels
  exact hR.wf

/-- A live node is a resting order. -/
theorem node (h : Sim P N b r) (hn : b.arena.get x = some n) : n.order ∈ r.side n.side := by
  obtain ⟨R, hR, rfl⟩ := h.labels
  rw [absOf_side]
  exact List.mem_map_of_mem (f := Prod.snd) (hR.mem hn)

/-- A resting order is a live node. -/
theorem order_node (h : Sim P N b r) {s : Side} {o : Order} (ho : o ∈ r.side s) :
    ∃ x n, b.arena.get x = some n ∧ n.side = s ∧ n.order = o := by
  obtain ⟨R, hR, rfl⟩ := h.labels
  rw [absOf_side] at ho
  obtain ⟨⟨x, o'⟩, he, rfl⟩ := List.mem_map.1 ho
  obtain ⟨n, hn, hns, hno⟩ := (hR.live s x o').1 he
  exact ⟨x, n, hn, hns, hno⟩

theorem nodes_perm (h : Sim P N b r) : (b.nodes.map Node.order).Perm r.orders := by
  obtain ⟨R, hR, rfl⟩ := h.labels
  exact hR.nodes_perm

/-- The live nodes of an account are its resting orders. -/
theorem nodes_account (h : Sim P N b r) (a : ℕ) :
    ((b.nodes.filter (fun n => n.account = a)).map Node.order).Perm (r.orders.filter (fun o => o.account = a)) := by
  refine List.Perm.trans (List.Perm.of_eq ?_) (h.nodes_perm.filter _)
  rw [List.filter_map]
  rfl

theorem len (h : Sim P N b r) : b.arena.len = r.orders.length := by
  obtain ⟨R, hR, rfl⟩ := h.labels
  exact hR.len_eq

/-- **The order index finds what the state finds.** -/
theorem lookup (h : Sim P N b r) (k : Key) :
    (b.orderIndex.lookup k = none ∧ r.find k = none) ∨
      ∃ x n, b.orderIndex.lookup k = some x ∧ b.arena.get x = some n ∧ n.key = k ∧
        r.find k = some (n.side, n.order) := by
  obtain ⟨R, hR, hr⟩ := h.labels
  cases hl : b.orderIndex.lookup k with
  | none =>
    left
    refine ⟨rfl, Ref.find_eq_none.2 ?_⟩
    rw [hr, absOf_orders]
    intro o ho hk
    obtain ⟨⟨y, o'⟩, he, rfl⟩ := List.mem_map.1 ho
    obtain ⟨s, he⟩ := mem_sides.1 he
    obtain ⟨m, hm, -, hmo⟩ := (hR.live s y o').1 he
    have := (hR.index k y).2 ⟨m, hm, by rw [← Node.order_key, hmo]; exact hk⟩
    rw [hl] at this
    simp at this
  | some x =>
    right
    obtain ⟨n, hn, hk⟩ := (hR.index k x).1 hl
    refine ⟨x, n, rfl, hn, hk, ?_⟩
    rw [← hk, ← Node.order_key]
    exact h.wf.find_mem (h.node hn)

/-- A live node is in the index. -/
theorem index (h : Sim P N b r) (hn : b.arena.get x = some n) : b.orderIndex.lookup (n.account, n.id) = some x := by
  obtain ⟨R, hR, -⟩ := h.labels
  exact (hR.index n.key x).2 ⟨n, hn, rfl⟩

theorem length_le (h : Sim P N b r) (s : Side) : (r.side s).length ≤ b.arena.slots.length := by
  obtain ⟨R, hR, rfl⟩ := h.labels
  rw [absOf_side]
  unfold plain
  rw [List.length_map]
  exact hR.length_le s

/-- **`unlink` removes an order.** -/
theorem unlink (h : Sim P N b r) (hn : b.arena.get x = some n) :
    ∃ b', b.unlink P x = .ok b' ∧ Sim P N b' (r.remove n.side n.order) := by
  obtain ⟨R, hR, rfl⟩ := h.labels
  obtain ⟨b', hb', hR', hl, hlen, hs⟩ := unlink_ok hR hn
  exact ⟨b', hb', of_rep hR' (hR.absOf_without hn hR' hl hs) (hlen ▸ h.slots)⟩

/-- Unlinking empties one slot and leaves the orders in the others. -/
theorem unlink_others (h : Sim P N b r) (hn : b.arena.get x = some n) {b' : Book} (hb' : b.unlink P x = .ok b') (y : ℕ) :
    (b'.arena.get y).map Node.order = if y = x then none else (b.arena.get y).map Node.order := by
  obtain ⟨R, hR, -⟩ := h.labels
  obtain ⟨b'', e, v, level, hb'', hview, -⟩ := unlink_view hR hn
  obtain rfl : b' = b'' := Except.ok.inj (hb'.symm.trans hb'')
  rw [hview.get]
  split
  · rfl
  · rw [Option.map_map]
    rfl

/-- **`reduce_resting_qty` lowers a quantity.** -/
theorem reduce (h : Sim P N b r) (hn : b.arena.get x = some n) {f : ℕ} (hf : f < n.qty) :
    ∃ b', b.reduceRestingQty P x n.side n.price f = .ok b' ∧ Sim P N b' (r.setQty n.side n.key (n.qty - f)) := by
  obtain ⟨R, hR, rfl⟩ := h.labels
  obtain ⟨b', hb', hR', hl, hlen, hs⟩ := reduce_ok hR hn hf
  exact ⟨b', hb', of_rep hR' (hR.absOf_requantified hn hR' hl hs) (hlen ▸ h.slots)⟩

/-- **The in-place amend sets a quantity.** -/
theorem amend (h : Sim P N b r) (hn : b.arena.get x = some n) {q : ℕ} (hq : 0 < q) (hle : q ≤ n.qty) :
    ∃ b', b.amendInPlace P x n q = .ok b' ∧ Sim P N b' (r.setQty n.side n.key q) := by
  obtain ⟨R, hR, rfl⟩ := h.labels
  obtain ⟨b', hb', hR', hl, hlen, hs⟩ := amend_ok hR hn hq hle
  exact ⟨b', hb', of_rep hR' (hR.absOf_requantified hn hR' hl hs) (hlen ▸ h.slots)⟩

/-- A trade price is only remembered. -/
theorem setLastTrade (h : Sim P N b r) (t : Option ℕ) :
    Sim P N { b with lastTrade := t } { r with lastTrade := t } := by
  obtain ⟨R, hR, rfl⟩ := h.labels
  have hR' : Rep P { b with lastTrade := t } R :=
    ⟨hR.live, hR.nodup, hR.sorted, hR.pos, hR.level, hR.linked, hR.free, hR.index, hR.dense, hR.notional⟩
  exact of_rep hR' rfl h.slots

/-- The scratch buffer is no part of the state. -/
theorem setScratch (h : Sim P N b r) (l : List ℕ) : Sim P N { b with massCancelScratch := l } r := by
  obtain ⟨R, hR, rfl⟩ := h.labels
  have hR' : Rep P { b with massCancelScratch := l } R :=
    ⟨hR.live, hR.nodup, hR.sorted, hR.pos, hR.level, hR.linked, hR.free, hR.index, hR.dense, hR.notional⟩
  exact of_rep hR' rfl h.slots

/-- A price is occupied exactly when an order rests there. -/
theorem mem_map_iff (h : Sim P N b r) (s : Side) (p : ℕ) : p ∈ b.map s ↔ ∃ o ∈ r.side s, o.price = p := by
  obtain ⟨R, hR, rfl⟩ := h.labels
  rw [hR.mem_map_iff, absOf_side]
  constructor
  · rintro ⟨e, he, hp⟩
    exact ⟨e.2, List.mem_map_of_mem (f := Prod.snd) he, hp⟩
  · rintro ⟨o, ho, hp⟩
    obtain ⟨e, he, rfl⟩ := List.mem_map.1 ho
    exact ⟨e, he, hp⟩

/-- A side without orders has no levels. -/
theorem map_eq_empty {s : Side} (h : Sim P N b r) (hc : r.side s = []) : b.map s = ∅ := by
  rw [Std.ExtTreeMap.eq_empty_iff_forall_not_mem]
  intro p hp
  obtain ⟨o, ho, -⟩ := (h.mem_map_iff s p).1 hp
  rw [hc] at ho
  exact List.not_mem_nil ho

/-- No level is better than that of the first order. -/
theorem first_best {s : Side} {o : Order} {l : List Order} (h : Sim P N b r) (hc : r.side s = o :: l) :
    o.price ∈ b.map s ∧ ∀ p ∈ b.map s, s.better o.price p := by
  have hsorted : (o :: l).Pairwise (fun o o' => s.better o.price o'.price) := hc ▸ h.wf.sorted s
  constructor
  · exact (h.mem_map_iff s _).2 ⟨o, by rw [hc]; exact List.mem_cons_self, rfl⟩
  · intro p hp
    obtain ⟨o', ho', rfl⟩ := (h.mem_map_iff s p).1 hp
    rw [hc] at ho'
    rcases List.mem_cons.1 ho' with rfl | ho'
    · exact s.better_refl _
    · exact (List.pairwise_cons.1 hsorted).1 o' ho'

/-- **The best prices are those of the first orders.** -/
theorem bestBid (h : Sim P N b r) : b.bestBid = r.bids.head?.map Order.price := by
  unfold Book.bestBid
  rw [← Std.ExtTreeMap.maxKey?_eq_getLast?_keys]
  cases hc : r.bids with
  | nil =>
    rw [List.head?_nil, Option.map_none, Std.ExtTreeMap.maxKey?_eq_none_iff]
    exact h.map_eq_empty (s := .buy) hc
  | cons o l =>
    obtain ⟨hmem, hbest⟩ := h.first_best (s := .buy) hc
    rw [List.head?_cons, Option.map_some, Std.ExtTreeMap.maxKey?_eq_some_iff_mem_and_forall]
    refine ⟨hmem, fun p hp => ?_⟩
    rw [Nat.isLE_compare]
    exact hbest p hp

theorem bestAsk (h : Sim P N b r) : b.bestAsk = r.asks.head?.map Order.price := by
  unfold Book.bestAsk
  rw [← Std.ExtTreeMap.minKey?_eq_head?_keys]
  cases hc : r.asks with
  | nil =>
    rw [List.head?_nil, Option.map_none, Std.ExtTreeMap.minKey?_eq_none_iff]
    exact h.map_eq_empty (s := .sell) hc
  | cons o l =>
    obtain ⟨hmem, hbest⟩ := h.first_best (s := .sell) hc
    rw [List.head?_cons, Option.map_some, Std.ExtTreeMap.minKey?_eq_some_iff_mem_and_forall]
    refine ⟨hmem, fun p hp => ?_⟩
    rw [Nat.isLE_compare]
    exact hbest p hp

/-- The crossing price is the first opposite order's, if it crosses. -/
theorem crossingPrice (h : Sim P N b r) (s : Side) (limit : ℕ) :
    b.crossingPrice s limit =
      ((r.side s.opposite).head?.map Order.price).filter (fun p => s.crosses limit p) := by
  cases s with
  | buy => exact congrArg (Option.filter _) h.bestAsk
  | sell => exact congrArg (Option.filter _) h.bestBid

/-- The head of a level is the first order of its price. -/
theorem level_head (h : Sim P N b r) {s : Side} {o : Order} {l : List Order} (hc : r.side s = o :: l) :
    ∃ x n, b.levelHead s o.price = some x ∧ b.arena.get x = some n ∧ n.side = s ∧ n.order = o := by
  obtain ⟨R, hR, rfl⟩ := h.labels
  rw [absOf_side] at hc
  unfold plain at hc
  obtain ⟨⟨x, o'⟩, L, hRs, rfl, -⟩ := List.map_eq_cons_iff.1 hc
  obtain ⟨n, hn, hns, hno⟩ := (hR.live s x o').1 (by rw [hRs]; simp)
  refine ⟨x, n, ?_, hn, hns, hno⟩
  rw [hR.levelHead_eq]
  simp [chainOf, levelOf, hRs]

theorem level_none (h : Sim P N b r) {s : Side} {p : ℕ} (hp : ∀ o ∈ r.side s, o.price ≠ p) :
    b.levelHead s p = none := by
  obtain ⟨R, hR, rfl⟩ := h.labels
  have hnil : levelOf (R s) p = [] := by
    rw [List.eq_nil_iff_forall_not_mem]
    intro e he
    obtain ⟨hm, hpe⟩ := mem_levelOf.1 he
    exact hp e.2 (by rw [absOf_side]; exact List.mem_map_of_mem (f := Prod.snd) hm) hpe
  rw [hR.levelHead_eq]
  simp [chainOf, hnil]

/-- A level's cached total is its orders' sum, as stored. -/
theorem totalQty (h : Sim P N b r) {s : Side} {p : ℕ} {l : Level} (hl : (b.map s)[p]? = some l) :
    P.u64.val (qtyAt (r.side s) p : ℕ) = some l.totalQty := by
  obtain ⟨R, hR, rfl⟩ := h.labels
  have hlev := hR.level s p
  rw [hl] at hlev
  rw [absOf_side, ← levelOf_qty]
  exact hlev.2.2.2.2

theorem level_some (h : Sim P N b r) {s : Side} {o : Order} (ho : o ∈ r.side s) :
    ∃ l, (b.map s)[o.price]? = some l := by
  have := (h.mem_map_iff s o.price).2 ⟨o, ho, rfl⟩
  rw [← Std.ExtTreeMap.isSome_getElem?_iff_mem] at this
  exact Option.isSome_iff_exists.1 this

/-- The entry of a side's best price is its touch. -/
theorem touch (h : Sim P N b r) {s : Side} {e : Option (ℕ × Level)} (he : ∀ v, e = some v → (b.map s)[v.1]? = some v.2)
    (hp : e.map Prod.fst = (r.side s).head?.map Order.price) :
    e.map (fun v => (v.1, v.2.totalQty)) = Ref.touch P (r.side s) := by
  cases hc : r.side s with
  | nil =>
    rw [hc] at hp
    have hnone : e = none := by simpa using hp
    rw [hnone]
    rfl
  | cons o l =>
    rw [hc] at hp
    obtain ⟨v, rfl, hv⟩ := Option.map_eq_some_iff.1 hp
    have ht := h.totalQty (he v rfl)
    rw [hc, hv] at ht
    simp [Ref.touch, Ref.stored, ht, hv]

/-- **The touch is the touch of the state.** -/
theorem topOfBook (h : Sim P N b r) : b.topOfBook = r.topOfBook P := by
  have hb : b.bids.toList.getLast?.map Prod.fst = r.bids.head?.map Order.price := by
    rw [← h.bestBid, ← List.getLast?_map, Std.ExtTreeMap.map_fst_toList_eq_keys]
    rfl
  have ha : b.asks.toList.head?.map Prod.fst = r.asks.head?.map Order.price := by
    rw [← h.bestAsk, ← List.head?_map, Std.ExtTreeMap.map_fst_toList_eq_keys]
    rfl
  have hbids := h.touch (s := .buy) (e := b.bids.toList.getLast?) (fun v hv =>
    Std.ExtTreeMap.mem_toList_iff_getElem?_eq_some.1 (List.mem_of_getLast? hv)) hb
  have hasks := h.touch (s := .sell) (e := b.asks.toList.head?) (fun v hv =>
    Std.ExtTreeMap.mem_toList_iff_getElem?_eq_some.1 (List.mem_of_head? hv)) ha
  exact Prod.ext hbids hasks

theorem slotsOf (h : Sim P N b r) (a : ℕ) : (b.slotsOf a).map b.idAt = r.slots a := by
  rw [← h.abs]
  rfl

/-- An account's open orders. -/
theorem openOrderCount (h : Sim P N b r) (a : ℕ) : b.accountOpenOrderCount a = (r.slots a).length := by
  rw [← h.slotsOf, List.length_map]
  unfold Book.accountOpenOrderCount Book.slotsOf
  cases b.accounts.lookup a <;> rfl

/-- An account's notional is its orders' sum, as stored. -/
theorem notional (h : Sim P N b r) (a : ℕ) : P.u128.val (r.notional a : ℕ) = some (b.accountNotional a) := by
  obtain ⟨R, hR, rfl⟩ := h.labels
  have hn := hR.notional_getD a
  unfold Ref.notional
  rw [absOf_orders, hn]
  unfold Book.accountNotional
  cases b.accounts.lookup a <;> rfl

theorem restingOrderSnapshot (h : Sim P N b r) (a o : ℕ) :
    b.restingOrderSnapshot a o = (r.find (a, o)).map (fun e => (e.2.price, e.2.qty)) := by
  unfold Book.restingOrderSnapshot
  rcases h.lookup (a, o) with ⟨hl, hf⟩ | ⟨x, n, hl, hn, -, hf⟩
  · rw [hl, hf]; rfl
  · rw [hl, hf]
    simp [hn, Node.order]

theorem lastTrade (h : Sim P N b r) : b.lastTrade = r.lastTrade := by
  rw [← h.abs]
  rfl

end Sim

section Rest

variable {P : Profile} {N : ℕ∞} {b : Book} {r : Ref}

/-- **`rest` puts an order behind its equals.** -/
theorem Sim.rest (h : Sim P N b r) {a o : ℕ} {side : Side} {p q : ℕ} (hk : b.orderIndex.lookup (a, o) = none)
    (hq : 0 < q) (hf : Fits P N (r.rest side ⟨a, o, p, q⟩)) :
    ∃ b', b.rest P a o side p q = .ok b' ∧ Sim P N b' (r.rest side ⟨a, o, p, q⟩) := by
  obtain ⟨R, hR, rfl⟩ := h.labels
  have h64 := hf.u64 side p
  rw [qtyAt_perm (Ref.rest_perm _ _ _), qtyAt_cons, if_pos rfl, absOf_side, Nat.add_comm] at h64
  have h128 := hf.u128 a
  unfold Ref.notional at h128
  rw [notionalIn_perm (Ref.rest_orders _ _ _), notionalIn_cons, if_pos rfl, absOf_orders, Nat.add_comm] at h128
  obtain ⟨b', x, hb', hR', -, hl, hlen, hs⟩ := rest_ok hR hk hq h64 h128
  refine ⟨b', hb', of_rep hR' (hR.absOf_placed hR' hl hs) ?_⟩
  have hcount := hf.slots
  rw [(Ref.rest_orders _ _ _).length_eq, List.length_cons, ← hR.len_eq] at hcount
  calc (b'.arena.slots.length : ℕ∞) ≤ (max b.arena.slots.length (b.arena.len + 1) : ℕ) := by exact_mod_cast hlen
    _ ≤ N := by
      rcases Nat.le_total b.arena.slots.length (b.arena.len + 1) with hm | hm
      · rw [Nat.max_eq_right hm]; exact hcount
      · rw [Nat.max_eq_left hm]; exact h.slots

end Rest

/-- **The empty book stands for the empty state.** -/
theorem Sim.new (P : Profile) (N : ℕ∞) : Sim P N .new .new := by
  have hget : ∀ y, Book.new.arena.get y = none := Arena.get_new
  have hR : Rep P .new (fun _ => []) := by
    refine ⟨?_, ?_, ?_, ?_, ?_, ?_, ⟨by simp [Book.new, Arena.new], by simp [Book.new, Arena.new]⟩, ?_, ?_, ?_⟩
    · intro s x o; simp [hget]
    · intro s; simp
    · intro s; simp
    · intro s e he; simp at he
    · intro s p
      have : (Book.new.map s)[p]? = none := by cases s <;> simp [Book.new, Book.map]
      rw [this]
      rfl
    · intro s p; exact linked_nil
    · intro k x; simp [Book.new]
    · intro a
      have : Book.new.slotsOf a = [] := by simp [Book.slotsOf, Book.new]
      rw [this]
      apply denseArray_nil
      rintro x ⟨n, hn, -⟩
      rw [hget] at hn
      simp at hn
    · intro a e he; simp [Book.new] at he
  refine Sim.of_rep hR ?_ (by simp [Book.new, Arena.new])
  apply Ref.ext
  · intro s; cases s <;> rfl
  · intro a; simp [absOf, Ref.new, Book.slotsOf, Book.new]
  · rfl

end MatchingEngine
