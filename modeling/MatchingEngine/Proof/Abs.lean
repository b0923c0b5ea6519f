import MatchingEngine.Proof.Unlink
import MatchingEngine.Proof.Rest
import MatchingEngine.Proof.Amend

/-!
# The reference state a book stands for

`Book.abs` reads a reference state off the pointers: every level along its links,
best price first, and every account array through the arena.

* `Rep.abs_eq`: the reading is the labelled lists without their slots.
* `Rep.wf`: the state read off is well formed.
* `Rep.absOf_without`, `Rep.absOf_placed`, `Rep.absOf_requantified`: the changes of the
  labelled lists are the changes of the reference state.
-/

namespace MatchingEngine

namespace Book

/-- The slots of a level, read along its links. -/
def chain (b : Book) (s : Side) (p : ℕ) : List ℕ :=
  followFrom b.arena.next b.arena.slots.length (b.levelHead s p)

/-- The occupied prices of a side, best first. -/
def pricesBestFirst (b : Book) : Side → List ℕ
  | .buy => b.bids.keys.reverse
  | .sell => b.asks.keys

/-- The resting orders of a side in priority order. -/
def ordersOf (b : Book) (s : Side) : List Order :=
  (b.pricesBestFirst s).flatMap fun p => (b.chain s p).filterMap fun x => (b.arena.get x).map Node.order

/-- The order id in a slot. -/
def idAt (b : Book) (slot : ℕ) : ℕ := ((b.arena.get slot).map Node.id).getD 0

/-- The live nodes, in slot order. -/
def nodes (b : Book) : List Node := b.arena.slots.filterMap id

/-- The reference state a book stands for. -/
def abs (b : Book) : Ref :=
  ⟨b.ordersOf .buy, b.ordersOf .sell, fun a => (b.slotsOf a).map b.idAt, b.lastTrade⟩

end Book

section

variable {P : Profile} {b : Book} {R : Side → List Slotted} {x : ℕ} {n : Node}

/-- The state that labelled lists stand for. -/
def absOf (b : Book) (R : Side → List Slotted) : Ref :=
  ⟨plain (R .buy), plain (R .sell), fun a => (b.slotsOf a).map b.idAt, b.lastTrade⟩

theorem absOf_side (b : Book) (R : Side → List Slotted) (s : Side) : (absOf b R).side s = plain (R s) := by
  cases s <;> rfl

theorem absOf_orders (b : Book) (R : Side → List Slotted) :
    (absOf b R).orders = plain (R .buy ++ R .sell) := by
  simp [absOf, Ref.orders, plain]

namespace Rep

theorem levelHead_eq (h : Rep P b R) (s : Side) (p : ℕ) : b.levelHead s p = (chainOf (R s) p).head? := by
  have hl := h.level s p
  unfold Book.levelHead chainOf
  cases hg : (b.map s)[p]? with
  | none =>
    rw [hg] at hl
    simp only [LevelOK] at hl
    rw [hl]
    rfl
  | some l =>
    rw [hg] at hl
    exact hl.2.1

/-- Following the links of a level visits its chain. -/
theorem chain_eq (h : Rep P b R) (s : Side) (p : ℕ) : b.chain s p = chainOf (R s) p := by
  unfold Book.chain
  rw [h.levelHead_eq]
  apply (h.linked s p).follow
  calc (chainOf (R s) p).length ≤ (R s).length := by
        unfold chainOf levelOf
        rw [List.length_map]
        exact List.length_filter_le _ _
    _ ≤ b.arena.slots.length := h.length_le s

/-- The orders along a chain are the level's. -/
theorem chain_orders (h : Rep P b R) (s : Side) (p : ℕ) :
    (b.chain s p).filterMap (fun x => (b.arena.get x).map Node.order) = plain (levelOf (R s) p) := by
  rw [h.chain_eq]
  unfold chainOf plain
  rw [List.filterMap_map, ← List.filterMap_eq_map]
  apply List.filterMap_congr
  rintro ⟨y, o⟩ he
  obtain ⟨m, hm, -, hmo⟩ := (h.live s y o).1 (mem_levelOf.1 he).1
  simp [hm, hmo]

theorem mem_pricesBestFirst {s : Side} {p : ℕ} : p ∈ b.pricesBestFirst s ↔ p ∈ b.map s := by
  cases s <;> simp [Book.pricesBestFirst, Book.map]

theorem pricesBestFirst_sorted (b : Book) (s : Side) :
    (b.pricesBestFirst s).Pairwise (fun p q => s.better p q ∧ p ≠ q) := by
  cases s with
  | buy =>
    have h := Std.ExtTreeMap.ordered_keys (t := b.bids)
    unfold Book.pricesBestFirst
    rw [List.pairwise_reverse]
    refine h.imp ?_
    intro p q hpq
    rw [Nat.compare_eq_lt] at hpq
    exact ⟨hpq.le, hpq.ne'⟩
  | sell =>
    have h := Std.ExtTreeMap.ordered_keys (t := b.asks)
    refine h.imp ?_
    intro p q hpq
    rw [Nat.compare_eq_lt] at hpq
    exact ⟨hpq.le, hpq.ne⟩

/-- Reading a side off the pointers gives its orders in priority order. -/
theorem ordersOf_eq (h : Rep P b R) (s : Side) : b.ordersOf s = plain (R s) := by
  have hq := flatMap_filter (f := fun e : Slotted => e.2.price) s.better_antisymm (h.sorted s)
    (pricesBestFirst_sorted b s) (fun e he => mem_pricesBestFirst.2 (h.mem_map_iff.2 ⟨e, he, rfl⟩))
  unfold Book.ordersOf
  rw [List.flatMap_congr (fun p _ => h.chain_orders s p)]
  nth_rewrite 2 [← hq]
  unfold plain
  rw [List.map_flatMap]
  rfl

/-- **The reading of a book is its labelled lists without the slots.** -/
theorem abs_eq (h : Rep P b R) : b.abs = absOf b R := by
  unfold Book.abs absOf
  rw [h.ordersOf_eq, h.ordersOf_eq]

theorem idAt_eq {s : Side} {o : Order} (h : Rep P b R) (hx : (x, o) ∈ R s) : b.idAt x = o.id := by
  obtain ⟨m, hm, -, hmo⟩ := (h.live s x o).1 hx
  unfold Book.idAt
  rw [hm, ← hmo]
  rfl

/-- Distinct slots hold distinct keys. -/
theorem key_slot {s s' : Side} {e e' : Slotted} (h : Rep P b R) (he : e ∈ R s) (he' : e' ∈ R s')
    (hk : e.2.key = e'.2.key) : e.1 = e'.1 := by
  obtain ⟨m, hm, -, hmo⟩ := (h.live s e.1 e.2).1 he
  obtain ⟨m', hm', -, hmo'⟩ := (h.live s' e'.1 e'.2).1 he'
  apply h.key_inj hm hm'
  rw [← Node.order_key, ← Node.order_key, hmo, hmo', hk]

theorem slot_key {s s' : Side} {e e' : Slotted} (h : Rep P b R) (he : e ∈ R s) (he' : e' ∈ R s')
    (hx : e.1 = e'.1) : s = s' ∧ e = e' := by
  obtain ⟨m, hm, hms, hmo⟩ := (h.live s e.1 e.2).1 he
  obtain ⟨m', hm', hms', hmo'⟩ := (h.live s' e'.1 e'.2).1 he'
  rw [hx] at hm
  obtain rfl : m = m' := Option.some.inj (hm.symm.trans hm')
  exact ⟨hms.symm.trans hms', Prod.ext hx (hmo.symm.trans hmo')⟩

/-- The live slots are those of the two sides. -/
theorem slots_nodup (h : Rep P b R) : ((R .buy ++ R .sell).map Prod.fst).Nodup := by
  rw [List.map_append, List.nodup_append]
  refine ⟨h.nodup _, h.nodup _, ?_⟩
  intro x hx y hy hxy
  obtain ⟨e, he, rfl⟩ := List.mem_map.1 hx
  obtain ⟨f, hf, rfl⟩ := List.mem_map.1 hy
  have := (h.slot_key he hf hxy).1
  simp at this

/-- A slot is live when one of the two sides lists it. -/
theorem mem_slots_iff (h : Rep P b R) (y : ℕ) :
    y ∈ (R .buy ++ R .sell).map Prod.fst ↔ ∃ m, b.arena.get y = some m := by
  rw [List.mem_map]
  constructor
  · rintro ⟨e, he, rfl⟩
    obtain ⟨s, he⟩ := mem_sides.1 he
    obtain ⟨m, hm, -⟩ := (h.live s e.1 e.2).1 he
    exact ⟨m, hm⟩
  · rintro ⟨m, hm⟩
    exact ⟨(y, m.order), mem_sides.2 ⟨_, h.mem hm⟩, rfl⟩

/-- The arena's count of live slots is the number of resting orders. -/
theorem len_eq (h : Rep P b R) : b.arena.len = (absOf b R).orders.length := by
  have hlive : b.arena.liveSlots = ((R .buy ++ R .sell).map Prod.fst).toFinset := by
    ext y
    rw [Arena.mem_liveSlots, List.mem_toFinset, h.mem_slots_iff]
  calc b.arena.len = b.arena.liveSlots.card := h.free.card_live.symm
    _ = ((R .buy ++ R .sell).map Prod.fst).length := by rw [hlive, List.toFinset_card_of_nodup h.slots_nodup]
    _ = (absOf b R).orders.length := by
      rw [absOf_orders]
      unfold plain
      simp only [List.length_map]

/-- The filled entries of a list, read off its positions one by one. -/
theorem filterMap_range_join {α : Type*} (l : List (Option α)) :
    (List.range l.length).filterMap (fun x => l[x]?.join) = l.filterMap id := by
  induction l using List.reverseRecOn with
  | nil => rfl
  | append_singleton l v ih =>
    rw [List.length_append, List.length_singleton, List.range_succ, List.filterMap_append, List.filterMap_append, ← ih]
    congr 1
    · apply List.filterMap_congr
      intro x hx
      rw [List.getElem?_append_left (List.mem_range.1 hx)]
    · cases v <;> simp

/-- The live nodes are the represented orders. -/
theorem nodes_perm (h : Rep P b R) : (b.nodes.map Node.order).Perm (absOf b R).orders := by
  have hslots : ((List.range b.arena.slots.length).filter (fun x => (b.arena.get x).isSome)).Perm
      ((R .buy ++ R .sell).map Prod.fst) := by
    rw [List.perm_ext_iff_of_nodup (List.nodup_range.filter _) h.slots_nodup]
    intro x
    rw [List.mem_filter, List.mem_range, h.mem_slots_iff, Option.isSome_iff_exists]
    exact ⟨And.right, fun ⟨n, hn⟩ => ⟨Arena.get_lt hn, n, hn⟩⟩
  have hnodes : b.nodes = ((List.range b.arena.slots.length).filter (fun x => (b.arena.get x).isSome)).filterMap
      b.arena.get := by
    unfold Book.nodes
    rw [← filterMap_range_join, List.filterMap_filter]
    apply List.filterMap_congr
    intro x _
    show b.arena.get x = _
    cases b.arena.get x <;> simp
  rw [hnodes, absOf_orders]
  refine ((hslots.filterMap b.arena.get).map Node.order).trans (List.Perm.of_eq ?_)
  rw [List.filterMap_map, List.map_filterMap]
  unfold plain
  rw [← List.filterMap_eq_map]
  apply List.filterMap_congr
  intro e he
  obtain ⟨s, he⟩ := mem_sides.1 he
  obtain ⟨n, hn, -, hno⟩ := (h.live s e.1 e.2).1 he
  simp [hn, hno]

/-- The state a represented book stands for is well formed. -/
theorem wf (h : Rep P b R) : (absOf b R).WF := by
  have hord : ∀ o, o ∈ (absOf b R).orders ↔ ∃ s y, (y, o) ∈ R s := by
    intro o
    rw [absOf_orders]
    unfold plain
    rw [List.mem_map]
    constructor
    · rintro ⟨⟨y, o'⟩, he, rfl⟩
      obtain ⟨s, he⟩ := mem_sides.1 he
      exact ⟨s, y, he⟩
    · rintro ⟨s, y, he⟩
      exact ⟨(y, o), mem_sides.2 ⟨s, he⟩, rfl⟩
  have hown : ∀ a y, y ∈ b.slotsOf a ↔ ∃ s o, (y, o) ∈ R s ∧ o.account = a := by
    intro a y
    rw [(h.dense a).mem_iff]
    constructor
    · rintro ⟨m, hm, ha⟩
      exact ⟨m.side, m.order, h.mem hm, ha⟩
    · rintro ⟨s, o, he, ha⟩
      obtain ⟨m, hm, -, hmo⟩ := (h.live s y o).1 he
      exact ⟨m, hm, by rw [← ha, ← hmo]; rfl⟩
  refine ⟨?_, ?_, ?_, ?_, ?_⟩
  · rw [absOf_orders]
    unfold plain
    rw [List.map_map]
    apply List.Nodup.map_on _ (List.Nodup.of_map _ h.slots_nodup)
    intro e he f hf hk
    obtain ⟨s, he⟩ := mem_sides.1 he
    obtain ⟨s', hf⟩ := mem_sides.1 hf
    exact (h.slot_key he hf (h.key_slot he hf hk)).2
  · intro s
    rw [absOf_side]
    unfold plain
    rw [List.pairwise_map]
    exact h.sorted s
  · intro o ho
    obtain ⟨s, y, he⟩ := (hord o).1 ho
    exact h.pos s _ he
  · intro a i
    show i ∈ (b.slotsOf a).map b.idAt ↔ _
    rw [List.mem_map]
    constructor
    · rintro ⟨y, hy, rfl⟩
      obtain ⟨s, o, he, ha⟩ := (hown a y).1 hy
      exact ⟨o, (hord o).2 ⟨s, y, he⟩, by rw [h.idAt_eq he, ← ha]; rfl⟩
    · rintro ⟨o, ho, hk⟩
      obtain ⟨s, y, he⟩ := (hord o).1 ho
      obtain ⟨ha, hi⟩ : o.account = a ∧ o.id = i := by simpa [Order.key] using hk
      exact ⟨y, (hown a y).2 ⟨s, o, he, ha⟩, by rw [h.idAt_eq he, hi]⟩
  · intro a
    apply List.Nodup.map_on _ (h.dense a).nodup
    intro y hy z hz hi
    obtain ⟨s, o, he, ha⟩ := (hown a y).1 hy
    obtain ⟨s', o', he', ha'⟩ := (hown a z).1 hz
    rw [h.idAt_eq he, h.idAt_eq he'] at hi
    exact h.key_slot he he' (Prod.ext (ha.trans ha'.symm) hi)

/-- Unlinking a slot removes its order from the state. -/
theorem absOf_without {b' : Book} (h : Rep P b R) (hn : b.arena.get x = some n) (h' : Rep P b' (without R x))
    (hl : b'.lastTrade = b.lastTrade)
    (hs : ∀ a, b'.slotsOf a = if a = n.account then swapRemove (b.slotsOf a) n.acctIdx else b.slotsOf a) :
    absOf b' (without R x) = (absOf b R).remove n.side n.order := by
  have hmem := h.mem hn
  -- the remaining slots hold the ids they held
  have hids : ∀ a, ∀ y ∈ b'.slotsOf a, b'.idAt y = b.idAt y := by
    intro a y hy
    obtain ⟨m, hm, ha⟩ := (h'.dense a).mem_iff.1 hy
    have he := h'.mem hm
    rw [h'.idAt_eq he, h.idAt_eq (mem_without.1 he).1]
  apply Ref.ext
  · intro s
    rw [Ref.remove_side, absOf_side, absOf_side, absOf_side]
    unfold plain without
    by_cases hside : s = n.side
    · subst hside
      rw [if_pos rfl, List.filter_map]
      congr 1
      apply List.filter_congr
      intro e he
      have hiff : e.1 = x ↔ e.2.key = n.order.key := by
        constructor
        · intro hx
          rw [(h.slot_key he hmem hx).2]
        · intro hk
          exact h.key_slot he hmem hk
      simp [hiff]
    · rw [if_neg hside, List.filter_eq_self.2]
      intro e he
      simp only [ne_eq, decide_not, Bool.not_eq_eq_eq_not, Bool.not_true, decide_eq_false_iff_not]
      intro hx
      exact h.notMem_other hn hside (hx ▸ List.mem_map_of_mem he)
  · intro a
    rw [Ref.remove_slots]
    show (b'.slotsOf a).map b'.idAt = if a = n.account
      then swapRemove ((b.slotsOf a).map b.idAt) (((b.slotsOf a).map b.idAt).idxOf n.id)
      else (b.slotsOf a).map b.idAt
    rw [List.map_congr_left (hids a), hs]
    by_cases ha : a = n.account
    · subst ha
      obtain ⟨e, -, hes, hei⟩ := h.entry_some hn
      -- the account's list names the order exactly where the node says
      have hidx : ((b.slotsOf n.account).map b.idAt).idxOf n.id = n.acctIdx := by
        have hnd := h.wf.slots_nodup n.account
        have hget : ((b.slotsOf n.account).map b.idAt)[n.acctIdx]? = some n.id := by
          rw [List.getElem?_map, hes, hei]
          simp [Book.idAt, hn]
        obtain ⟨hlt, hget⟩ := List.getElem?_eq_some_iff.1 hget
        rw [← hget]
        exact List.Nodup.idxOf_getElem hnd _ hlt
      rw [if_pos rfl, if_pos rfl, hidx, swapRemove_map]
    · rw [if_neg ha, if_neg ha]
  · rw [Ref.remove_lastTrade]
    exact hl

/-- Resting an order puts it in the state. -/
theorem absOf_placed {b' : Book} {a o p q : ℕ} {side : Side} (h : Rep P b R)
    (h' : Rep P b' (placed R side x ⟨a, o, p, q⟩)) (hl : b'.lastTrade = b.lastTrade)
    (hs : ∀ a', b'.slotsOf a' = if a' = a then b.slotsOf a ++ [x] else b.slotsOf a') :
    absOf b' (placed R side x ⟨a, o, p, q⟩) = (absOf b R).rest side ⟨a, o, p, q⟩ := by
  have hids : ∀ a, ∀ y ∈ b.slotsOf a, b'.idAt y = b.idAt y := by
    intro a y hy
    obtain ⟨m, hm, ha⟩ := (h.dense a).mem_iff.1 hy
    have he := h.mem hm
    rw [h.idAt_eq he, h'.idAt_eq (mem_placed.2 (Or.inr he))]
  have hidx : b'.idAt x = o := h'.idAt_eq (mem_placed.2 (Or.inl ⟨rfl, rfl⟩))
  apply Ref.ext
  · intro s
    rw [Ref.rest_side, absOf_side, absOf_side, absOf_side]
    unfold placed
    by_cases hside : s = side
    · subst hside
      rw [if_pos rfl, if_pos rfl]
      exact (insertBack_map (g := Prod.snd) (fun _ _ => Iff.rfl)).symm
    · rw [if_neg hside, if_neg hside]
  · intro a'
    rw [Ref.rest_slots]
    show (b'.slotsOf a').map b'.idAt = if a' = a then (b.slotsOf a').map b.idAt ++ [o] else (b.slotsOf a').map b.idAt
    rw [hs]
    by_cases ha : a' = a
    · subst ha
      rw [if_pos rfl, if_pos rfl, List.map_append, List.map_congr_left (hids a'), List.map_singleton, hidx]
    · rw [if_neg ha, if_neg ha, List.map_congr_left (hids a')]
  · rw [Ref.rest_lastTrade]
    exact hl

/-- Changing a quantity in a slot changes it in the state. -/
theorem absOf_requantified {b' : Book} {q : ℕ} (h : Rep P b R) (hn : b.arena.get x = some n)
    (h' : Rep P b' (requantified R x q)) (hl : b'.lastTrade = b.lastTrade)
    (hs : ∀ a, b'.slotsOf a = b.slotsOf a) :
    absOf b' (requantified R x q) = (absOf b R).setQty n.side n.key q := by
  have hmem := h.mem hn
  have hids : ∀ a, ∀ y ∈ b.slotsOf a, b'.idAt y = b.idAt y := by
    intro a y hy
    obtain ⟨m, hm, ha⟩ := (h.dense a).mem_iff.1 hy
    have he := h.mem hm
    have he' : (if y = x then (y, { m.order with qty := q }) else (y, m.order)) ∈ requantified R x q m.side :=
      List.mem_map.2 ⟨_, he, rfl⟩
    rw [h.idAt_eq he]
    split at he'
    · have hi := h'.idAt_eq he'
      exact hi
    · exact h'.idAt_eq he'
  apply Ref.ext
  · intro s
    rw [Ref.setQty_side, absOf_side, absOf_side, absOf_side]
    unfold plain requantified
    by_cases hside : s = n.side
    · subst hside
      rw [if_pos rfl, List.map_map, List.map_map]
      apply List.map_congr_left
      intro e he
      have hiff : e.1 = x ↔ e.2.key = n.key := by
        constructor
        · intro hx
          rw [(h.slot_key he hmem hx).2]
          rfl
        · intro hk
          exact h.key_slot he hmem hk
      simp only [Function.comp_apply, hiff]
      split <;> rfl
    · rw [if_neg hside, map_requantify_of_notMem (h.notMem_other hn hside)]
  · intro a
    rw [Ref.setQty_slots]
    show (b'.slotsOf a).map b'.idAt = (b.slotsOf a).map b.idAt
    rw [hs, List.map_congr_left (hids a)]
  · rw [Ref.setQty_lastTrade]
    exact hl

end Rep

end

end MatchingEngine
