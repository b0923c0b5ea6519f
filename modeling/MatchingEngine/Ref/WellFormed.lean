import MatchingEngine.Ref.Model
import MatchingEngine.Lib.Keyed

/-!
# Well-formed reference states

What every operation of the reference model keeps: distinct keys, priority order,
no empty order, and account lists that enumerate the accounts' orders.

* `Ref.WF.remove`, `Ref.WF.rest`, `Ref.WF.setQty`: the three changes of a state.
* `Ref.WF.find_mem`, `Ref.find_some`, `Ref.find_eq_none`: lookup by key.
-/

namespace MatchingEngine

/-- Being at least as good on a side is a linear order of the prices. -/
theorem Side.better_refl (s : Side) (p : ℕ) : s.better p p := by cases s <;> exact le_refl p

theorem Side.better_trans (s : Side) (p q r : ℕ) (h : s.better p q) (h' : s.better q r) : s.better p r := by
  cases s <;> simp only [Side.better] at * <;> omega

theorem Side.better_total (s : Side) (p q : ℕ) : s.better p q ∨ s.better q p := by
  cases s <;> simp only [Side.better] <;> omega

theorem Side.better_antisymm (s : Side) (p q : ℕ) (h : s.better p q) (h' : s.better q p) : p = q := by
  cases s <;> simp only [Side.better] at * <;> omega

/-- A price that crosses is crossed by every better one. -/
theorem Side.crosses_of_better (s : Side) {limit p q : ℕ} (h : s.opposite.better p q)
    (hq : s.crosses limit q) : s.crosses limit p := by
  cases s <;> simp only [Side.better, Side.crosses, Side.opposite] at * <;> omega

section Sums

/-- Notionals add up, whatever the order of the orders. -/
theorem notionalIn_append (l l' : List Order) (a : ℕ) :
    notionalIn (l ++ l') a = notionalIn l a + notionalIn l' a := by
  simp [notionalIn]

theorem notionalIn_cons (o : Order) (l : List Order) (a : ℕ) :
    notionalIn (o :: l) a = (if o.account = a then o.price * o.qty else 0) + notionalIn l a := by
  unfold notionalIn
  by_cases h : o.account = a <;> simp [h]

theorem notionalIn_perm {l l' : List Order} (h : l.Perm l') (a : ℕ) : notionalIn l a = notionalIn l' a :=
  ((h.filter _).map _).sum_eq

/-- A quantity at a price does not depend on the order of the orders. -/
theorem qtyAt_perm {l l' : List Order} (h : l.Perm l') (p : ℕ) : qtyAt l p = qtyAt l' p :=
  ((h.filter _).map _).sum_eq

theorem qtyAt_append (l l' : List Order) (p : ℕ) : qtyAt (l ++ l') p = qtyAt l p + qtyAt l' p := by
  simp [qtyAt]

theorem qtyAt_cons (o : Order) (l : List Order) (p : ℕ) :
    qtyAt (o :: l) p = (if o.price = p then o.qty else 0) + qtyAt l p := by
  unfold qtyAt
  by_cases h : o.price = p <;> simp [h]

end Sums

namespace Ref

/-- A state is its two sides, its slot lists and its last trade. -/
@[ext] theorem ext {r r' : Ref} (hs : ∀ s, r.side s = r'.side s) (ha : ∀ a, r.slots a = r'.slots a)
    (hl : r.lastTrade = r'.lastTrade) : r = r' := by
  cases r
  cases r'
  have hb := hs .buy
  have hk := hs .sell
  simp only [side] at hb hk ha hl
  rw [hb, hk, hl, funext ha]

section Fields

variable (r : Ref) (s s' : Side) (l : List Order)

/-- A side is replaced, the other stays. -/
theorem setSide_side : (r.setSide s l).side s' = if s' = s then l else r.side s' := by
  cases s <;> cases s' <;> simp [setSide, side]

@[simp] theorem setSide_slots : (r.setSide s l).slots = r.slots := by cases s <;> rfl
@[simp] theorem setSide_lastTrade : (r.setSide s l).lastTrade = r.lastTrade := by cases s <;> rfl

/-- An order that is taken out leaves its side. -/
theorem remove_side (o : Order) :
    (r.remove s o).side s' = if s' = s then (r.side s).filter (fun x => x.key ≠ o.key) else r.side s' := by
  have h : (r.remove s o).side s' = (r.setSide s ((r.side s).filter (fun x => x.key ≠ o.key))).side s' := by
    cases s' <;> rfl
  rw [h, setSide_side]

/-- The last of its account's list takes its place there. -/
theorem remove_slots (o : Order) (a : ℕ) :
    (r.remove s o).slots a = if a = o.account
      then swapRemove (r.slots a) ((r.slots a).idxOf o.id) else r.slots a := by
  by_cases h : a = o.account
  · subst h; simp [remove]
  · simp [remove, h]

@[simp] theorem remove_lastTrade (o : Order) : (r.remove s o).lastTrade = r.lastTrade := by simp [remove]

/-- A resized order stays where it is. -/
theorem setQty_side (k : Key) (q : ℕ) :
    (r.setQty s k q).side s' = if s' = s
      then (r.side s).map (fun x => if x.key = k then { x with qty := q } else x) else r.side s' :=
  setSide_side _ _ _ _

@[simp] theorem setQty_slots (k : Key) (q : ℕ) : (r.setQty s k q).slots = r.slots := setSide_slots _ _ _
@[simp] theorem setQty_lastTrade (k : Key) (q : ℕ) : (r.setQty s k q).lastTrade = r.lastTrade :=
  setSide_lastTrade _ _ _

/-- An order that rests goes behind all that are as good. -/
theorem rest_side (o : Order) :
    (r.rest s o).side s' = if s' = s then insertBack Order.price s.better o (r.side s) else r.side s' := by
  have h : (r.rest s o).side s' = (r.setSide s (insertBack Order.price s.better o (r.side s))).side s' := by
    cases s' <;> rfl
  rw [h, setSide_side]

/-- And to the end of its account's list. -/
theorem rest_slots (o : Order) (a : ℕ) :
    (r.rest s o).slots a = if a = o.account then r.slots a ++ [o.id] else r.slots a := by
  by_cases h : a = o.account
  · subst h; simp [rest]
  · simp [rest, h]

@[simp] theorem rest_lastTrade (o : Order) : (r.rest s o).lastTrade = r.lastTrade := by simp [rest]

/-- The orders are those of the two sides. -/
theorem mem_orders (o : Order) : o ∈ r.orders ↔ ∃ s, o ∈ r.side s := by
  unfold orders
  rw [List.mem_append]
  constructor
  · rintro (h | h)
    · exact ⟨.buy, h⟩
    · exact ⟨.sell, h⟩
  · rintro ⟨s, h⟩
    cases s with
    | buy => exact Or.inl h
    | sell => exact Or.inr h

end Fields

/-- A well-formed reference state: distinct keys, priority order, no empty order, and each
account's list enumerating its own orders. -/
structure WF (r : Ref) : Prop where
  keys : (r.orders.map Order.key).Nodup
  sorted : ∀ s, (r.side s).Pairwise (fun o o' => s.better o.price o'.price)
  pos : ∀ o ∈ r.orders, 0 < o.qty
  slots_mem : ∀ a i, i ∈ r.slots a ↔ ∃ o ∈ r.orders, o.key = (a, i)
  slots_nodup : ∀ a, (r.slots a).Nodup

end Ref

namespace Ref

variable {r : Ref} {s : Side} {o : Order} {k : Key}

theorem side_sub_orders (r : Ref) (s : Side) : ∀ o ∈ r.side s, o ∈ r.orders := fun o ho =>
  (r.mem_orders o).2 ⟨s, ho⟩

/-- Keys tell orders apart. -/
theorem WF.key_inj (h : r.WF) {o o' : Order} (ho : o ∈ r.orders) (ho' : o' ∈ r.orders) (hk : o.key = o'.key) :
    o = o' :=
  key_inj_of_nodup h.keys ho ho' hk

/-- Also on one side no key comes twice. -/
theorem WF.side_keys (h : r.WF) (s : Side) : ((r.side s).map Order.key).Nodup := by
  have hk := h.keys
  unfold orders at hk
  rw [List.map_append] at hk
  cases s with
  | buy => exact (List.nodup_append.1 hk).1
  | sell => exact (List.nodup_append.1 hk).2.1

/-- An order rests on one side only. -/
theorem WF.side_disjoint (h : r.WF) {s s' : Side} {o o' : Order} (ho : o ∈ r.side s) (ho' : o' ∈ r.side s')
    (hk : o.key = o'.key) : s = s' := by
  have hn := h.keys
  unfold orders at hn
  rw [List.map_append] at hn
  have hd := (List.nodup_append.1 hn).2.2
  cases s with
  | buy =>
    cases s' with
    | buy => rfl
    | sell => exact absurd hk (hd _ (List.mem_map_of_mem ho) _ (List.mem_map_of_mem ho'))
  | sell =>
    cases s' with
    | buy => exact absurd hk.symm (hd _ (List.mem_map_of_mem ho') _ (List.mem_map_of_mem ho))
    | sell => rfl

/-- A key is free if no order has it. -/
theorem find_eq_none : r.find k = none ↔ ∀ o ∈ r.orders, o.key ≠ k := by
  have hf : ∀ l : List Order, l.find? (fun o => o.key = k) = none ↔ ∀ o ∈ l, o.key ≠ k := by
    intro l; simp
  unfold find orders
  constructor
  · intro h o ho
    cases hb : r.bids.find? (fun o => o.key = k) with
    | some o' => simp [hb] at h
    | none =>
      rw [hb] at h
      simp only [Option.map_eq_none_iff] at h
      rcases List.mem_append.1 ho with ho | ho
      · exact (hf _).1 hb o ho
      · exact (hf _).1 h o ho
  · intro h
    rw [(hf r.bids).2 (fun o ho => h o (List.mem_append_left _ ho))]
    simp only [Option.map_eq_none_iff]
    exact (hf r.asks).2 (fun o ho => h o (List.mem_append_right _ ho))

/-- An order is found by its key. -/
theorem WF.find_mem (h : r.WF) (ho : o ∈ r.side s) : r.find o.key = some (s, o) := by
  unfold find
  cases s with
  | buy =>
    have hb : r.bids.find? (fun o' => o'.key = o.key) = some o := find?_key (h.side_keys .buy) ho
    rw [hb]
  | sell =>
    have hb : r.bids.find? (fun o' => o'.key = o.key) = none := by
      rw [List.find?_eq_none]
      intro o' ho' hk
      have hside : Side.buy = .sell := h.side_disjoint ho' ho (by simpa using hk)
      simp at hside
    have ha : r.asks.find? (fun o' => o'.key = o.key) = some o := find?_key (h.side_keys .sell) ho
    rw [hb, ha]
    rfl

/-- What is found rests, and has the key. -/
theorem find_some (h : r.find k = some (s, o)) : o ∈ r.side s ∧ o.key = k := by
  unfold find at h
  cases hb : r.bids.find? (fun o => o.key = k) with
  | some o' =>
    rw [hb] at h
    simp only [Option.some.injEq, Prod.mk.injEq] at h
    obtain ⟨rfl, rfl⟩ := h
    exact ⟨List.mem_of_find?_eq_some hb, by simpa using List.find?_some hb⟩
  | none =>
    rw [hb] at h
    simp only [Option.map_eq_some_iff, Prod.mk.injEq] at h
    obtain ⟨o', ha, rfl, rfl⟩ := h
    exact ⟨List.mem_of_find?_eq_some ha, by simpa using List.find?_some ha⟩

end Ref

section Rest

/-- The new order joins the orders of its side. -/
theorem Ref.rest_perm (r : Ref) (s : Side) (o : Order) : ((r.rest s o).side s).Perm (o :: r.side s) := by
  rw [Ref.rest_side, if_pos rfl]
  exact insertBack_perm _ _

theorem Ref.rest_orders (r : Ref) (s : Side) (o : Order) : (r.rest s o).orders.Perm (o :: r.orders) := by
  have hp := r.rest_perm s o
  have hother : ∀ s', s' ≠ s → (r.rest s o).side s' = r.side s' := fun s' hs => by rw [Ref.rest_side, if_neg hs]
  unfold Ref.orders
  cases s with
  | buy =>
    have hk : (r.rest .buy o).asks = r.asks := hother .sell (by decide)
    rw [hk]
    exact hp.append_right r.asks
  | sell =>
    have hk : (r.rest .sell o).bids = r.bids := hother .buy (by decide)
    rw [hk]
    exact (hp.append_left r.bids).trans List.perm_middle

end Rest

namespace Ref

variable {r : Ref} {s : Side} {o : Order} {l : List Order}

/-! ### The last trade price is independent of the rest -/

/-- A trade price changes no order. -/
@[simp] theorem withTrade_side (r : Ref) (t : Option ℕ) (s : Side) :
    Ref.side { r with lastTrade := t } s = r.side s := by cases s <;> rfl

@[simp] theorem withTrade_orders (r : Ref) (t : Option ℕ) : Ref.orders { r with lastTrade := t } = r.orders := rfl

theorem WF.withTrade (h : r.WF) (t : Option ℕ) : Ref.WF { r with lastTrade := t } :=
  ⟨h.keys, fun s => by rw [withTrade_side]; exact h.sorted s, h.pos, h.slots_mem, h.slots_nodup⟩

/-! ### Removing an order -/

theorem remove_side_self (r : Ref) (s : Side) (o : Order) :
    (r.remove s o).side s = (r.side s).filter (fun x => x.key ≠ o.key) := by
  rw [remove_side, if_pos rfl]

/-- The other side stays. -/
theorem remove_side_ne (r : Ref) {s s' : Side} (o : Order) (hs : s' ≠ s) : (r.remove s o).side s' = r.side s' := by
  rw [remove_side, if_neg hs]

/-- The first order leaves its list's tail behind. -/
theorem WF.remove_head (h : r.WF) (hc : r.side s = o :: l) : (r.remove s o).side s = l := by
  have hk := h.side_keys s
  rw [remove_side_self, hc]
  rw [hc] at hk
  exact filter_key_split (show (([] ++ o :: l).map Order.key).Nodup from hk)

/-- Nothing is added, and nothing reordered. -/
theorem remove_side_sublist (r : Ref) (s s' : Side) (o : Order) :
    ((r.remove s o).side s').Sublist (r.side s') := by
  rw [remove_side]
  split
  · rename_i hs
    rw [hs]
    exact List.filter_sublist
  · exact List.Sublist.refl _

theorem remove_orders_sublist (r : Ref) (s : Side) (o : Order) : ((r.remove s o).orders).Sublist r.orders :=
  (r.remove_side_sublist s .buy o).append (r.remove_side_sublist s .sell o)

/-- The removed order and the rest. -/
theorem WF.remove_perm (h : r.WF) (ho : o ∈ r.side s) : r.orders.Perm (o :: (r.remove s o).orders) := by
  have hp := perm_cons_filter (h.side_keys s) ho
  have hself := r.remove_side_self s o
  unfold orders
  cases s with
  | buy =>
    have hb : (r.remove .buy o).bids = r.bids.filter (fun x => x.key ≠ o.key) := hself
    have ha : (r.remove .buy o).asks = r.asks := r.remove_side_ne o (by decide : Side.sell ≠ .buy)
    rw [hb, ha]
    exact hp.append_right r.asks
  | sell =>
    have ha : (r.remove .sell o).asks = r.asks.filter (fun x => x.key ≠ o.key) := hself
    have hb : (r.remove .sell o).bids = r.bids := r.remove_side_ne o (by decide : Side.buy ≠ .sell)
    rw [ha, hb]
    exact (hp.append_left r.bids).trans List.perm_middle

/-- All other orders still rest. -/
theorem WF.mem_remove (h : r.WF) (ho : o ∈ r.side s) {o' : Order} :
    o' ∈ (r.remove s o).orders ↔ o' ∈ r.orders ∧ o'.key ≠ o.key := by
  have hp := h.remove_perm ho
  have hk := (hp.map Order.key).nodup_iff.1 h.keys
  rw [List.map_cons, List.nodup_cons] at hk
  rw [hp.mem_iff, List.mem_cons]
  constructor
  · intro ho'
    exact ⟨Or.inr ho', fun he => hk.1 (he ▸ List.mem_map_of_mem ho')⟩
  · rintro ⟨rfl | ho', hne⟩
    · exact absurd rfl hne
    · exact ho'

/-- The removed order is off its account's list. -/
theorem WF.slots_remove (h : r.WF) (ho : o ∈ r.side s) (a : ℕ) :
    (r.slots a).Perm (if a = o.account then o.id :: (r.remove s o).slots a else (r.remove s o).slots a) := by
  rw [remove_slots]
  by_cases ha : a = o.account
  · subst ha
    rw [if_pos rfl, if_pos rfl]
    exact swapRemove_perm ((h.slots_mem _ _).2 ⟨o, r.side_sub_orders s o ho, rfl⟩)
  · rw [if_neg ha, if_neg ha]

/-- **Taking an order out keeps the state well formed.** -/
theorem WF.remove (h : r.WF) (ho : o ∈ r.side s) : (r.remove s o).WF := by
  refine ⟨?_, ?_, ?_, ?_, ?_⟩
  · exact h.keys.sublist ((r.remove_orders_sublist s o).map _)
  · intro s'; exact (h.sorted s').sublist (r.remove_side_sublist s s' o)
  · intro o' ho'; exact h.pos o' ((h.mem_remove ho).1 ho').1
  · intro a i
    have hp := h.slots_remove ho a
    have hnd := hp.nodup_iff.1 (h.slots_nodup a)
    have hm := h.slots_mem a i
    rw [hp.mem_iff] at hm
    have hkey : (∃ o' ∈ (r.remove s o).orders, o'.key = (a, i)) ↔
        (∃ o' ∈ r.orders, o'.key = (a, i)) ∧ o.key ≠ (a, i) := by
      constructor
      · rintro ⟨o', ho', hk⟩
        obtain ⟨h1, h2⟩ := (h.mem_remove ho).1 ho'
        exact ⟨⟨o', h1, hk⟩, fun he => h2 (hk.trans he.symm)⟩
      · rintro ⟨⟨o', ho', hk⟩, hne⟩
        exact ⟨o', (h.mem_remove ho).2 ⟨ho', fun he => hne (he ▸ hk)⟩, hk⟩
    rw [hkey, ← hm]
    by_cases ha : a = o.account
    · rw [if_pos ha] at hnd ⊢
      rw [List.nodup_cons] at hnd
      have hne : o.key ≠ (a, i) ↔ i ≠ o.id := by
        rw [ha]
        simp only [Order.key, ne_eq, Prod.mk.injEq, true_and]
        exact ⟨fun h' e => h' e.symm, fun h' e => h' e.symm⟩
      rw [hne, List.mem_cons]
      constructor
      · intro hi
        exact ⟨Or.inr hi, fun e => hnd.1 (e ▸ hi)⟩
      · rintro ⟨hi | hi, hne⟩
        · exact absurd hi hne
        · exact hi
    · rw [if_neg ha]
      have hne : o.key ≠ (a, i) := fun e => ha (congrArg Prod.fst e).symm
      exact ⟨fun hi => ⟨hi, hne⟩, fun hi => hi.1⟩
  · intro a
    have hnd := (h.slots_remove ho a).nodup_iff.1 (h.slots_nodup a)
    by_cases ha : a = o.account
    · rw [if_pos ha, List.nodup_cons] at hnd
      exact hnd.2
    · rw [if_neg ha] at hnd
      exact hnd

/-! ### Changing a quantity -/

theorem setQty_side_ne (r : Ref) {s s' : Side} (k : Key) (q : ℕ) (hs : s' ≠ s) :
    (r.setQty s k q).side s' = r.side s' := by
  rw [setQty_side, if_neg hs]

/-- The first order keeps its place. -/
theorem WF.setQty_head (h : r.WF) (hc : r.side s = o :: l) (q : ℕ) :
    (r.setQty s o.key q).side s = { o with qty := q } :: l := by
  have hk := h.side_keys s
  rw [setQty_side, if_pos rfl, hc]
  rw [hc] at hk
  exact map_key_split (g := fun x => { x with qty := q }) (show (([] ++ o :: l).map Order.key).Nodup from hk)

/-- All others stay, and it has its new quantity. -/
theorem WF.setQty_mem (h : r.WF) (ho : o ∈ r.side s) (q : ℕ) {o' : Order} :
    o' ∈ (r.setQty s o.key q).orders ↔ (o' ∈ r.orders ∧ o'.key ≠ o.key) ∨ o' = { o with qty := q } := by
  rw [mem_orders, mem_orders]
  constructor
  · rintro ⟨s', ho'⟩
    rw [setQty_side] at ho'
    by_cases hs : s' = s
    · rw [if_pos hs] at ho'
      obtain ⟨x, hx, he⟩ := List.mem_map.1 ho'
      by_cases hk : x.key = o.key
      · rw [if_pos hk] at he
        right
        rw [← he, key_inj_of_nodup (h.side_keys s) hx ho hk]
      · rw [if_neg hk] at he
        left
        rw [← he]
        exact ⟨⟨s, hx⟩, hk⟩
    · rw [if_neg hs] at ho'
      exact Or.inl ⟨⟨s', ho'⟩, fun hk => hs (h.side_disjoint ho' ho hk)⟩
  · rintro (⟨⟨s', ho'⟩, hk⟩ | rfl)
    · refine ⟨s', ?_⟩
      rw [setQty_side]
      by_cases hs : s' = s
      · rw [if_pos hs]
        exact List.mem_map.2 ⟨o', hs ▸ ho', if_neg hk⟩
      · rw [if_neg hs]; exact ho'
    · refine ⟨s, ?_⟩
      rw [setQty_side, if_pos rfl]
      exact List.mem_map.2 ⟨o, ho, if_pos rfl⟩

/-- Resizing keeps keys and prices in place. -/
theorem setQty_keys (r : Ref) (s : Side) (k : Key) (q : ℕ) (s' : Side) :
    ((r.setQty s k q).side s').map Order.key = (r.side s').map Order.key := by
  rw [setQty_side]
  by_cases hs : s' = s
  · rw [if_pos hs, hs]
    exact map_key_congr (fun x => by split <;> rfl)
  · rw [if_neg hs]

theorem setQty_prices (r : Ref) (s : Side) (k : Key) (q : ℕ) (s' : Side) :
    ((r.setQty s k q).side s').map Order.price = (r.side s').map Order.price := by
  rw [setQty_side]
  by_cases hs : s' = s
  · rw [if_pos hs, hs]
    exact map_key_congr (fun x => by split <;> rfl)
  · rw [if_neg hs]

/-- What holds of both sides holds of all orders. -/
theorem orders_map_congr {β : Type*} {f : Order → β} {r r' : Ref}
    (h : ∀ s, (r'.side s).map f = (r.side s).map f) : r'.orders.map f = r.orders.map f := by
  have hb : r'.bids.map f = r.bids.map f := h .buy
  have ha : r'.asks.map f = r.asks.map f := h .sell
  unfold orders
  rw [List.map_append, List.map_append, hb, ha]

/-- **Resizing an order to a quantity that is not zero keeps the state well formed.** -/
theorem WF.setQty (h : r.WF) (ho : o ∈ r.side s) {q : ℕ} (hq : 0 < q) : (r.setQty s o.key q).WF := by
  have hkeys := orders_map_congr (r.setQty_keys s o.key q)
  refine ⟨by rw [hkeys]; exact h.keys, ?_, ?_, ?_, by rw [setQty_slots]; exact h.slots_nodup⟩
  · intro s'
    have hs := h.sorted s'
    rw [← List.pairwise_map (f := Order.price) (R := s'.better)] at hs ⊢
    rw [setQty_prices]
    exact hs
  · intro o' ho'
    rcases (h.setQty_mem ho q).1 ho' with ⟨hm, -⟩ | rfl
    · exact h.pos o' hm
    · exact hq
  · intro a i
    rw [setQty_slots, h.slots_mem, ← List.mem_map, ← List.mem_map, hkeys]

/-! ### Resting an order -/

theorem rest_side_ne (r : Ref) {s s' : Side} (o : Order) (hs : s' ≠ s) : (r.rest s o).side s' = r.side s' := by
  rw [rest_side, if_neg hs]

/-- **Resting an order under a free key keeps the state well formed.** -/
theorem WF.rest (h : r.WF) (hk : r.find o.key = none) (hq : 0 < o.qty) : (r.rest s o).WF := by
  have hp := r.rest_orders s o
  have hnew : o.key ∉ r.orders.map Order.key := by
    intro hm
    obtain ⟨o', ho', he⟩ := List.mem_map.1 hm
    exact find_eq_none.1 hk o' ho' he
  refine ⟨?_, ?_, ?_, ?_, ?_⟩
  · rw [(hp.map Order.key).nodup_iff, List.map_cons, List.nodup_cons]
    exact ⟨hnew, h.keys⟩
  · intro s'
    rw [rest_side]
    by_cases hs : s' = s
    · rw [if_pos hs, hs]
      exact insertBack_sorted (f := Order.price) s.better_total s.better_trans o (h.sorted s)
    · rw [if_neg hs]
      exact h.sorted s'
  · intro o' ho'
    rcases List.mem_cons.1 (hp.mem_iff.1 ho') with rfl | ho'
    · exact hq
    · exact h.pos o' ho'
  · intro a i
    -- the account gains the one slot of the new order
    have hex : (∃ o' ∈ (r.rest s o).orders, o'.key = (a, i)) ↔ o.key = (a, i) ∨ i ∈ r.slots a := by
      rw [h.slots_mem]
      constructor
      · rintro ⟨o', ho', he⟩
        rcases List.mem_cons.1 (hp.mem_iff.1 ho') with rfl | ho'
        · exact Or.inl he
        · exact Or.inr ⟨o', ho', he⟩
      · rintro (he | ⟨o', ho', he⟩)
        · exact ⟨o, hp.mem_iff.2 (by simp), he⟩
        · exact ⟨o', hp.mem_iff.2 (List.mem_cons_of_mem _ ho'), he⟩
    rw [hex, rest_slots]
    by_cases ha : a = o.account
    · rw [if_pos ha, List.mem_append, List.mem_singleton, ha]
      simp only [Order.key, Prod.mk.injEq, true_and]
      rw [or_comm, eq_comm]
    · rw [if_neg ha]
      have hne : o.key ≠ (a, i) := fun e => ha (congrArg Prod.fst e).symm
      exact ⟨Or.inr, fun hh => hh.resolve_left hne⟩
  · intro a
    rw [rest_slots]
    by_cases ha : a = o.account
    · rw [if_pos ha, List.nodup_append]
      refine ⟨h.slots_nodup a, by simp, ?_⟩
      intro i hi j hj hij
      obtain ⟨o', ho', he⟩ := (h.slots_mem a i).1 hi
      rw [List.mem_singleton] at hj
      apply hnew
      rw [show o.key = o'.key by rw [he, hij, hj, ha]; rfl]
      exact List.mem_map_of_mem ho'
    · rw [if_neg ha]
      exact h.slots_nodup a

/-- **An order that came to rest and leaves again** leaves nothing behind. -/
theorem WF.remove_rest (h : r.WF) (hk : r.find o.key = none) : (r.rest s o).remove s o = r := by
  have hnew : ∀ o' ∈ r.orders, o'.key ≠ o.key := find_eq_none.1 hk
  have hid : o.id ∉ r.slots o.account := by
    intro hmem
    obtain ⟨o', ho', hkey⟩ := (h.slots_mem _ _).1 hmem
    exact hnew o' ho' hkey
  refine Ref.ext (fun s' => ?_) (fun a => ?_) ?_
  · rw [remove_side]
    by_cases hs : s' = s
    · rw [if_pos hs, rest_side, if_pos rfl, hs]
      exact filter_insertBack (by simp) (fun o' ho' => by simpa using hnew o' (r.side_sub_orders s o' ho'))
    · rw [if_neg hs, rest_side_ne r o hs]
  · rw [remove_slots, rest_slots]
    by_cases ha : a = o.account
    · rw [if_pos ha, if_pos ha, ha]
      exact swapRemove_push hid
    · rw [if_neg ha, if_neg ha]
  · rw [remove_lastTrade, rest_lastTrade]

/-- **The slot array lists the account's resting orders**, each once. -/
theorem WF.slots_perm (h : r.WF) (a : ℕ) :
    (r.slots a).Perm ((r.orders.filter (fun o => o.account = a)).map Order.id) := by
  have hnd : ((r.orders.filter (fun o => o.account = a)).map Order.id).Nodup := by
    refine List.Nodup.map_on ?_ ((List.Nodup.of_map _ h.keys).filter _)
    intro o ho o' ho' hid
    obtain ⟨hm, ha⟩ := List.mem_filter.1 ho
    obtain ⟨hm', ha'⟩ := List.mem_filter.1 ho'
    rw [decide_eq_true_iff] at ha ha'
    exact h.key_inj hm hm' (Prod.ext (ha.trans ha'.symm) hid)
  rw [List.perm_ext_iff_of_nodup (h.slots_nodup a) hnd]
  intro i
  rw [h.slots_mem, List.mem_map]
  constructor
  · rintro ⟨o, ho, hk⟩
    obtain ⟨rfl, rfl⟩ : o.account = a ∧ o.id = i := Prod.mk.inj hk
    exact ⟨o, List.mem_filter.2 ⟨ho, decide_eq_true rfl⟩, rfl⟩
  · rintro ⟨o, ho, rfl⟩
    obtain ⟨hm, ha⟩ := List.mem_filter.1 ho
    rw [decide_eq_true_iff] at ha
    exact ⟨o, hm, by rw [← ha]; rfl⟩

/-- An account's list is as long as it has orders. -/
theorem WF.slots_length (h : r.WF) (a : ℕ) :
    (r.slots a).length = (r.orders.filter (fun o => o.account = a)).length := by
  rw [(h.slots_perm a).length_eq, List.length_map]

end Ref

end MatchingEngine
