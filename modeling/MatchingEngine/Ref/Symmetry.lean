import MatchingEngine.Ref.Step

/-!
# Symmetries of the reference book

A `Symmetry` renames accounts, renames the order ids of each account, moves prices and may
exchange the sides. It keeps distinct orders distinct and leaves every order's priority as it
was, so the book cannot tell a run from its image.

* `Ref.Image`: a state and its image.
* `Image.dispatch`: the image of a command does to the image of a state what the command does
  to the state, and emits the images of its events.
* `Image.apply`: with the top-of-book update.
-/

namespace MatchingEngine

/-- Crossing is ranking on the other side. -/
theorem Side.crosses_iff (s : Side) (limit p : ℕ) : s.crosses limit p ↔ s.opposite.better p limit := by
  cases s <;> exact Iff.rfl

/-- New names for the accounts and, for each account, new names for its orders. -/
structure Renaming where
  account : ℕ → ℕ
  id : ℕ → ℕ → ℕ
  account_inj : Function.Injective account
  id_inj : ∀ a, Function.Injective (id a)

/-- A renaming that may also turn the sides around and map the prices of its domain. -/
structure Symmetry extends Renaming where
  side : Side → Side
  price : ℕ → ℕ
  /-- The prices orders may rest at. -/
  dom : ℕ → Prop
  side_opposite : ∀ s, side s.opposite = (side s).opposite
  better : ∀ {p q : ℕ} (s : Side), dom p → dom q → ((side s).better (price p) (price q) ↔ s.better p q)
  /-- A market order reaches the same prices. -/
  market : ∀ {p : ℕ} (s : Side), dom p →
    ((side s).crosses (Ref.limitOf .market (side s) 0) (price p) ↔ s.crosses (Ref.limitOf .market s 0) p)

namespace Symmetry

variable (T : Symmetry)

/-- A key, renamed. -/
def key (k : Key) : Key := (T.account k.1, T.id k.1 k.2)

/-- An order, mapped. -/
def order (o : Order) : Order := ⟨T.account o.account, T.id o.account o.id, T.price o.price, o.qty⟩

/-- A touch, mapped. -/
def touch (t : TouchSide) : TouchSide := t.map (fun x => (T.price x.1, x.2))

/-- Best bid and best ask, in their new places. -/
def touches (bid ask : TouchSide) : TouchSide × TouchSide :=
  match T.side .buy with
  | .buy => (T.touch bid, T.touch ask)
  | .sell => (T.touch ask, T.touch bid)

/-- The image of a command. The price of a market order is not looked at and stays. -/
def command : Command → Command
  | .newOrder accountId orderId side price qty kind tif clientTs =>
    .newOrder (T.account accountId) (T.id accountId orderId) (T.side side)
      (match kind with | .limit => T.price price | .market => price) qty kind tif clientTs
  | .cancelOrder accountId orderId => .cancelOrder (T.account accountId) (T.id accountId orderId)
  | .cancelReplace accountId orderId newPrice newQty =>
    .cancelReplace (T.account accountId) (T.id accountId orderId) (T.price newPrice) newQty
  | .massCancel accountId => .massCancel (T.account accountId)
  | .killSwitch engaged => .killSwitch engaged
  | .snapshot => .snapshot

/-- An event, mapped. -/
def event : Event → Event
  | .accepted accountId orderId restingQty => .accepted (T.account accountId) (T.id accountId orderId) restingQty
  | .rejected accountId orderId reason => .rejected (T.account accountId) (T.id accountId orderId) reason
  | .filled accountId orderId side price qty restingQty state =>
    .filled (T.account accountId) (T.id accountId orderId) (T.side side) (T.price price) qty restingQty state
  | .cancelled accountId orderId => .cancelled (T.account accountId) (T.id accountId orderId)
  | .replaced accountId orderId newQty priorityRetained =>
    .replaced (T.account accountId) (T.id accountId orderId) newQty priorityRetained
  | .trade price qty takerSide => .trade (T.price price) qty (T.side takerSide)
  | .bookUpdate bestBid bestAsk => .bookUpdate (T.touches bestBid bestAsk).1 (T.touches bestBid bestAsk).2
  | .snapshotLevel side price qty orderCount => .snapshotLevel (T.side side) (T.price price) qty orderCount
  | .snapshotAccount accountId openOrderCount notional => .snapshotAccount (T.account accountId) openOrderCount notional
  | .snapshotSummary bestBid bestAsk lastTrade levelCount accountCount =>
    .snapshotSummary (T.touches bestBid bestAsk).1 (T.touches bestBid bestAsk).2 (lastTrade.map T.price) levelCount
      accountCount

/-- The command brings no price from outside the domain. -/
def Admits : Command → Prop
  | .newOrder _ _ _ p _ k _ _ => k = .limit → T.dom p
  | .cancelReplace _ _ p _ => T.dom p
  | _ => True

variable {T}

/-- The sides are mapped one to one. -/
theorem side_inj {s s' : Side} (h : T.side s = T.side s') : s = s' := by
  by_contra hne
  have hop : s' = s.opposite := by cases s <;> cases s' <;> first | rfl | exact absurd rfl hne
  rw [hop, T.side_opposite] at h
  exact Side.opposite_ne _ h.symm

/-- Every side is the image of one. -/
theorem side_surj (s : Side) : ∃ s', T.side s' = s := by
  by_cases h : T.side .buy = s
  · exact ⟨.buy, h⟩
  · refine ⟨.sell, ?_⟩
    have hop : T.side .sell = (T.side .buy).opposite := T.side_opposite .buy
    rw [hop]
    revert h
    cases T.side .buy <;> cases s <;> decide

/-- Keys stay apart. -/
theorem key_inj {k k' : Key} : T.key k = T.key k' ↔ k = k' := by
  constructor
  · intro h
    obtain ⟨a, i⟩ := k
    obtain ⟨a', i'⟩ := k'
    obtain ⟨ha, hi⟩ := Prod.mk.inj h
    obtain rfl : a = a' := T.account_inj ha
    obtain rfl : i = i' := T.id_inj a hi
    rfl
  · exact fun h => h ▸ rfl

@[simp] theorem order_key (o : Order) : (T.order o).key = T.key o.key := rfl

theorem order_account {a : ℕ} {o : Order} : (T.order o).account = T.account a ↔ o.account = a := T.account_inj.eq_iff

/-- So do prices, in the domain. -/
theorem price_inj {p q : ℕ} (hp : T.dom p) (hq : T.dom q) : T.price p = T.price q ↔ p = q := by
  constructor
  · intro h
    have h1 := T.better .buy hp hq
    have h2 := T.better .buy hq hp
    rw [h] at h1 h2
    exact Side.better_antisymm .buy p q (h1.1 (Side.better_refl _ _)) (h2.1 (Side.better_refl _ _))
  · exact fun h => h ▸ rfl

/-- `limit'` is to the images of prices what `limit` is to the prices. -/
def Limits (T : Symmetry) (s : Side) (limit limit' : ℕ) : Prop :=
  ∀ p, T.dom p → ((T.side s).crosses limit' (T.price p) ↔ s.crosses limit p)

/-- A price of the domain is a limit and is mapped as one. -/
theorem limits_of_dom (s : Side) {p : ℕ} (hp : T.dom p) : T.Limits s p (T.price p) := by
  intro q hq
  rw [Side.crosses_iff, Side.crosses_iff, ← T.side_opposite]
  exact T.better s.opposite hq hp

end Symmetry

namespace Ref

/-- `r'` is the image of `r`, whose orders rest at prices of the domain. -/
structure Image (T : Symmetry) (r r' : Ref) : Prop where
  side : ∀ s, r'.side (T.side s) = (r.side s).map T.order
  slots : ∀ a, r'.slots (T.account a) = (r.slots a).map (T.id a)
  lastTrade : r'.lastTrade = r.lastTrade.map T.price
  within : ∀ o ∈ r.orders, T.dom o.price

/-- The result of an operation and of its image. -/
structure ImageOut (T : Symmetry) (x x' : Ref × List Event) : Prop where
  state : Image T x.1 x'.1
  events : x'.2 = x.2.map T.event

/-- The same for a sweep, which also says what it left. -/
structure ImageSweep (T : Symmetry) (x x' : Ref × ℕ × List Event) : Prop where
  state : Image T x.1 x'.1
  left : x'.2.1 = x.2.1
  events : x'.2.2 = x.2.2.map T.event

/-- Image, rest and events of a sweep and its image. -/
theorem ImageSweep.parts {T : Symmetry} {x x' : Ref × ℕ × List Event} (h : ImageSweep T x x') :
    ∃ r r' left evs, x = (r, left, evs) ∧ x' = (r', left, evs.map T.event) ∧ Image T r r' := by
  obtain ⟨r, left, evs⟩ := x
  obtain ⟨r', left', evs'⟩ := x'
  obtain rfl : left' = left := h.left
  obtain rfl : evs' = evs.map T.event := h.events
  exact ⟨r, r', left', evs, rfl, rfl, h.state⟩

namespace Image

variable {T : Symmetry} {r r' : Ref} {a i : ℕ} {s : Side} {limit limit' p q : ℕ}

/-- The empty book is its own image. -/
theorem new (T : Symmetry) : Image T Ref.new Ref.new := by
  refine ⟨fun s => ?_, fun _ => rfl, rfl, by simp [Ref.new, orders]⟩
  have hnil : ∀ s, Ref.new.side s = [] := fun s => by cases s <;> rfl
  rw [hnil, hnil]
  rfl

/-- Resting prices are in the domain. -/
theorem dom (h : Image T r r') {o : Order} (ho : o ∈ r.side s) : T.dom o.price :=
  h.within o (r.side_sub_orders s o ho)

/-! ### The changes of a state -/

/-- Taking an order out keeps the image; and so do the other edits of the book. -/
theorem remove (h : Image T r r') (s : Side) (o : Order) :
    Image T (r.remove s o) (r'.remove (T.side s) (T.order o)) := by
  refine ⟨fun s' => ?_, fun a => ?_, ?_, fun x hx => h.within x ((r.remove_orders_sublist s o).subset hx)⟩
  · rw [remove_side, remove_side]
    by_cases hs : s' = s
    · rw [if_pos (congrArg T.side hs), if_pos hs, h.side, List.filter_map]
      congr 1
      apply List.filter_congr
      intro x _
      simp only [Function.comp_def, Symmetry.order_key, ne_eq, Symmetry.key_inj]
    · rw [if_neg (fun he => hs (Symmetry.side_inj he)), if_neg hs, h.side]
  · rw [remove_slots, remove_slots]
    by_cases ha : a = o.account
    · have hidx := idxOf_map (T.id_inj a) (r.slots a) o.id
      rw [if_pos (Symmetry.order_account.2 ha.symm).symm, if_pos ha, h.slots, ← swapRemove_map, ← hidx, ha]
      rfl
    · rw [if_neg (fun he => ha (Symmetry.order_account.1 he.symm).symm), if_neg ha, h.slots]
  · rw [remove_lastTrade, remove_lastTrade, h.lastTrade]

theorem setQty (h : Image T r r') (s : Side) (k : Key) (q : ℕ) :
    Image T (r.setQty s k q) (r'.setQty (T.side s) (T.key k) q) := by
  refine ⟨fun s' => ?_, fun a => ?_, ?_, fun x hx => ?_⟩
  · rw [setQty_side, setQty_side]
    by_cases hs : s' = s
    · rw [if_pos (congrArg T.side hs), if_pos hs, h.side, List.map_map, List.map_map]
      apply List.map_congr_left
      intro x _
      simp only [Function.comp_def, Symmetry.order_key, Symmetry.key_inj]
      split
      · rfl
      · rfl
    · rw [if_neg (fun he => hs (Symmetry.side_inj he)), if_neg hs, h.side]
  · rw [setQty_slots, setQty_slots, h.slots]
  · rw [setQty_lastTrade, setQty_lastTrade, h.lastTrade]
  · have hp := orders_map_congr (r.setQty_prices s k q)
    have hm : x.price ∈ r.orders.map Order.price := hp ▸ List.mem_map_of_mem hx
    obtain ⟨y, hy, he⟩ := List.mem_map.1 hm
    exact he ▸ h.within y hy

theorem rest (h : Image T r r') (s : Side) {o : Order} (ho : T.dom o.price) :
    Image T (r.rest s o) (r'.rest (T.side s) (T.order o)) := by
  refine ⟨fun s' => ?_, fun a => ?_, ?_, fun x hx => ?_⟩
  · rw [rest_side, rest_side]
    by_cases hs : s' = s
    · rw [if_pos (congrArg T.side hs), if_pos hs, h.side]
      exact insertBack_map (fun x hx => T.better s (h.dom hx) ho)
    · rw [if_neg (fun he => hs (Symmetry.side_inj he)), if_neg hs, h.side]
  · rw [rest_slots, rest_slots]
    by_cases ha : a = o.account
    · rw [if_pos (Symmetry.order_account.2 ha.symm).symm, if_pos ha, h.slots, List.map_append, ha]
      rfl
    · rw [if_neg (fun he => ha (Symmetry.order_account.1 he.symm).symm), if_neg ha, h.slots]
  · rw [rest_lastTrade, rest_lastTrade, h.lastTrade]
  · rcases List.mem_cons.1 ((r.rest_orders s o).mem_iff.1 hx) with rfl | hx
    · exact ho
    · exact h.within x hx

theorem traded (h : Image T r r') (p : ℕ) :
    Image T { r with lastTrade := some p } { r' with lastTrade := some (T.price p) } :=
  ⟨fun s => by cases s <;> exact h.side _, h.slots, rfl, h.within⟩

/-! ### Sweeps -/

/-- The image of the orders a limit crosses are those its image crosses. -/
theorem crossing (h : Image T r r') (hl : T.Limits s limit limit') :
    r'.crossing (T.side s) limit' = (r.crossing s limit).map T.order := by
  unfold Ref.crossing
  rw [← T.side_opposite, h.side, List.takeWhile_map]
  congr 1
  refine takeWhile_congr_mem fun o ho => ?_
  exact decide_eq_decide.2 (hl o.price (h.dom ho))

/-- The events of a fill, mapped. -/
theorem fillEvents_map (a i : ℕ) (s : Side) (o : Order) (q remaining : ℕ) :
    fillEvents (T.account a) (T.id a i) (T.side s) (T.order o) q remaining =
      (fillEvents a i s o q remaining).map T.event := by
  unfold fillEvents
  rw [← T.side_opposite]
  rfl

/-- **One match and its image.** -/
theorem matchStep (a i : ℕ) (s : Side) {x x' : Ref × ℕ × List Event} (hx : ImageSweep T x x') (o : Order) :
    ImageSweep T (Ref.matchStep a i s x o)
      (Ref.matchStep (T.account a) (T.id a i) (T.side s) x' (T.order o)) := by
  obtain ⟨r, remaining, evs⟩ := x
  obtain ⟨r', remaining', evs'⟩ := x'
  obtain ⟨h, hleft, hevs⟩ := hx
  obtain rfl : remaining' = remaining := hleft
  obtain rfl : evs' = evs.map T.event := hevs
  have ha' : (T.order o).account = T.account a ↔ o.account = a := Symmetry.order_account
  have hq : (T.order o).qty = o.qty := rfl
  simp only [Ref.matchStep, ha', hq, ← T.side_opposite, fillEvents_map]
  split
  · exact ⟨h, rfl, rfl⟩
  · split
    · -- an own order
      exact ⟨h.remove s.opposite o, rfl, by simp [Symmetry.event, Symmetry.order]⟩
    · refine ⟨?_, rfl, List.map_append.symm⟩
      split
      · exact (h.remove s.opposite o).traded o.price
      · exact (h.setQty s.opposite o.key _).traded o.price

/-- By induction along the orders: matching and its image stay image and book. -/
theorem foldl_matchStep (a i : ℕ) (s : Side) (l : List Order) {x x' : Ref × ℕ × List Event} (hx : ImageSweep T x x') :
    ImageSweep T (l.foldl (Ref.matchStep a i s) x)
      ((l.map T.order).foldl (Ref.matchStep (T.account a) (T.id a i) (T.side s)) x') := by
  induction l generalizing x x' with
  | nil => exact hx
  | cons o l ih => exact ih (matchStep a i s hx o)

/-- **A sweep and its image.** -/
theorem sweep (h : Image T r r') (a i : ℕ) (hl : T.Limits s limit limit') (q : ℕ) :
    ImageSweep T (r.sweep a i s limit q) (r'.sweep (T.account a) (T.id a i) (T.side s) limit' q) := by
  unfold Ref.sweep
  rw [h.crossing hl]
  exact foldl_matchStep a i s (r.crossing s limit) ⟨h, rfl, rfl⟩

/-- Resting a remainder keeps the image. -/
theorem restRemainder (h : Image T r r') (a i : ℕ) (s : Side) (hp : T.dom p) (q : ℕ) :
    Image T (r.restRemainder a i s p q) (r'.restRemainder (T.account a) (T.id a i) (T.side s) (T.price p) q) := by
  unfold Ref.restRemainder
  split
  · exact h.rest s (o := ⟨a, i, p, q⟩) hp
  · exact h

/-! ### Commands -/

/-- A key is found in the image just if it is found in the book. -/
theorem find (h : Image T r r') (hw : r'.WF) (k : Key) :
    r'.find (T.key k) = (r.find k).map (fun x => (T.side x.1, T.order x.2)) := by
  cases hf : r.find k with
  | none =>
    rw [Option.map_none, find_eq_none]
    intro o' ho'
    obtain ⟨s', ho'⟩ := (r'.mem_orders o').1 ho'
    obtain ⟨s, rfl⟩ := T.side_surj s'
    rw [h.side] at ho'
    obtain ⟨o, ho, rfl⟩ := List.mem_map.1 ho'
    exact fun he => find_eq_none.1 hf o (r.side_sub_orders s o ho) (Symmetry.key_inj.1 he)
  | some x =>
    obtain ⟨s, o⟩ := x
    obtain ⟨ho, rfl⟩ := find_some hf
    have hm : T.order o ∈ r'.side (T.side s) := h.side s ▸ List.mem_map_of_mem ho
    exact hw.find_mem hm

theorem unlessDuplicate (h : Image T r r') (hw : r'.WF) (a i : ℕ) {x x' : Ref × List Event} (hx : ImageOut T x x') :
    ImageOut T (r.unlessDuplicate a i x) (r'.unlessDuplicate (T.account a) (T.id a i) x') := by
  have hf : r'.find (T.account a, T.id a i) = _ := h.find hw (a, i)
  unfold Ref.unlessDuplicate
  rw [hf, Option.isSome_map]
  split
  · exact ⟨h, rfl⟩
  · exact hx

/-- Image and book submit alike; and so for the other operations. -/
theorem submitGtc (h : Image T r r') (hw : r'.WF) (a i : ℕ) (s : Side) (hp : T.dom p) (q : ℕ) :
    ImageOut T (r.submitGtc a i s p q) (r'.submitGtc (T.account a) (T.id a i) (T.side s) (T.price p) q) := by
  obtain ⟨r₁, r₁', left, evs, h1, h1', hc⟩ := (h.sweep a i (Symmetry.limits_of_dom s hp) q).parts
  unfold Ref.submitGtc
  rw [h1, h1']
  exact h.unlessDuplicate hw a i ⟨hc.restRemainder a i s hp left, by simp [Symmetry.event]⟩

theorem submitIoc (h : Image T r r') (hw : r'.WF) (a i : ℕ) (hl : T.Limits s limit limit') (q : ℕ) :
    ImageOut T (r.submitIoc a i s limit q) (r'.submitIoc (T.account a) (T.id a i) (T.side s) limit' q) := by
  obtain ⟨r₁, r₁', left, evs, h1, h1', hc⟩ := (h.sweep a i hl q).parts
  unfold Ref.submitIoc
  rw [h1, h1']
  exact h.unlessDuplicate hw a i ⟨hc, by simp [Symmetry.event]⟩

/-- The depth a fill-or-kill order counts is the same. -/
theorem foreignDepth (h : Image T r r') (a : ℕ) (hl : T.Limits s limit limit') :
    r'.foreignDepth (T.account a) (T.side s) limit' = r.foreignDepth a s limit := by
  unfold Ref.foreignDepth
  rw [h.crossing hl, List.filter_map, List.map_map]
  simp only [Function.comp_def, ne_eq, Symmetry.order_account]
  rfl

theorem submitFok (h : Image T r r') (hw : r'.WF) (a i : ℕ) (s : Side) (hp : T.dom p) (q : ℕ) :
    ImageOut T (r.submitFok a i s p q) (r'.submitFok (T.account a) (T.id a i) (T.side s) (T.price p) q) := by
  have hl := Symmetry.limits_of_dom s hp
  obtain ⟨r₁, r₁', left, evs, h1, h1', hc⟩ := (h.sweep a i hl q).parts
  unfold Ref.submitFok
  rw [h1, h1', h.foreignDepth a hl]
  refine h.unlessDuplicate hw a i ?_
  split
  · exact ⟨hc, by simp [Symmetry.event]⟩
  · exact ⟨h, rfl⟩

/-- By induction along the orders taken out. -/
theorem foldl_remove (s : Side) (l : List Order) : ∀ {r r' : Ref} (_ : Image T r r'),
    Image T (l.foldl (fun r o => r.remove s o) r) ((l.map T.order).foldl (fun r o => r.remove (T.side s) o) r') := by
  induction l with
  | nil => exact fun h => h
  | cons o l ih => exact fun h => ih (h.remove s o)

theorem submitPostonly (h : Image T r r') (hw : r'.WF) (a i : ℕ) (s : Side) (hp : T.dom p) (q : ℕ) :
    ImageOut T (r.submitPostonly a i s p q) (r'.submitPostonly (T.account a) (T.id a i) (T.side s) (T.price p) q) := by
  have hcross := h.crossing (Symmetry.limits_of_dom s hp)
  have hown : r'.ownPrefix (T.account a) (T.side s) (T.price p) = (r.ownPrefix a s p).map T.order := by
    unfold Ref.ownPrefix
    rw [hcross, List.takeWhile_map]
    simp only [Function.comp_def, Symmetry.order_account]
  have hforeign : (∃ o ∈ r'.crossing (T.side s) (T.price p), o.account ≠ T.account a) ↔
      ∃ o ∈ r.crossing s p, o.account ≠ a := by
    rw [hcross]
    simp only [List.mem_map, exists_exists_and_eq_and, ne_eq, Symmetry.order_account]
  have hclear := foldl_remove s.opposite (r.ownPrefix a s p) h
  have hevs : ((r.ownPrefix a s p).map T.order).map (fun o => Event.cancelled o.account o.id) =
      ((r.ownPrefix a s p).map (fun o => Event.cancelled o.account o.id)).map T.event := by
    rw [List.map_map, List.map_map]
    rfl
  unfold Ref.submitPostonly
  refine h.unlessDuplicate hw a i ?_
  simp only [hown, hforeign, hevs, ← T.side_opposite]
  split
  · exact ⟨hclear, by simp [Symmetry.event]⟩
  · exact ⟨hclear.rest s (o := ⟨a, i, p, q⟩) hp, by simp [Symmetry.event]⟩

theorem modify (h : Image T r r') (hw : r'.WF) (a i : ℕ) (hp : T.dom p) (q : ℕ) :
    ImageOut T (r.modify a i p q) (r'.modify (T.account a) (T.id a i) (T.price p) q) := by
  have hf : r'.find (T.account a, T.id a i) = _ := h.find hw (a, i)
  unfold Ref.modify
  rw [hf]
  split
  · exact ⟨h, rfl⟩
  · cases hr : r.find (a, i) with
    | none => exact ⟨h, rfl⟩
    | some x =>
      obtain ⟨s, o⟩ := x
      have hd : T.dom o.price := h.dom (find_some hr).1
      have hsame : T.price p = (T.order o).price ↔ p = o.price := Symmetry.price_inj hp hd
      have hqty : (T.order o).qty = o.qty := rfl
      obtain ⟨r₁, r₁', left, evs, h1, h1', hc⟩ := ((h.remove s o).sweep a i (Symmetry.limits_of_dom s hp) q).parts
      simp only [Option.map_some, hsame, hqty, h1, h1']
      split
      · exact ⟨h.setQty s o.key q, rfl⟩
      · exact ⟨hc.restRemainder a i s hp left, rfl⟩

theorem cancel (h : Image T r r') (hw : r'.WF) (a i : ℕ) :
    ImageOut T (r.cancel a i) (r'.cancel (T.account a) (T.id a i)) := by
  have hf : r'.find (T.account a, T.id a i) = _ := h.find hw (a, i)
  unfold Ref.cancel
  rw [hf]
  cases r.find (a, i) with
  | none => exact ⟨h, rfl⟩
  | some x => exact ⟨h.remove x.1 x.2, rfl⟩

theorem removeKey (h : Image T r r') (hw : r'.WF) (k : Key) : Image T (r.removeKey k) (r'.removeKey (T.key k)) := by
  unfold Ref.removeKey
  rw [h.find hw]
  cases r.find k with
  | none => exact h
  | some x => exact h.remove x.1 x.2

/-- By induction along the ids. -/
theorem foldl_removeKey (a : ℕ) (ids : List ℕ) : ∀ {r r' : Ref} (_ : Image T r r') (_ : r'.WF),
    Image T (ids.foldl (fun r id => r.removeKey (a, id)) r)
      ((ids.map (T.id a)).foldl (fun r id => r.removeKey (T.account a, id)) r') := by
  induction ids with
  | nil => exact fun h _ => h
  | cons i ids ih => exact fun h hw => ih (h.removeKey hw (a, i)) (hw.removeKey _)

theorem massCancel (h : Image T r r') (hw : r'.WF) (a : ℕ) :
    ImageOut T (r.massCancel a) (r'.massCancel (T.account a)) := by
  unfold Ref.massCancel
  rw [h.slots]
  refine ⟨foldl_removeKey a (r.slots a) h hw, ?_⟩
  rw [List.map_map, List.map_map]
  rfl

/-- **One command and its image.** -/
theorem dispatch (h : Image T r r') (hw : r'.WF) (P : Profile) {c : Command} (hc : T.Admits c) (hs : c ≠ .snapshot) :
    ImageOut T (r.dispatch P c) (r'.dispatch P (T.command c)) := by
  cases c with
  | newOrder a i s p q k t ts =>
    cases k with
    | market => exact h.submitIoc hw a i (fun p hp => T.market s hp) q
    | limit =>
      have hp : T.dom p := hc rfl
      cases t with
      | gtc => exact h.submitGtc hw a i s hp q
      | ioc => exact h.submitIoc hw a i (Symmetry.limits_of_dom s hp) q
      | fok => exact h.submitFok hw a i s hp q
      | postOnly => exact h.submitPostonly hw a i s hp q
  | cancelOrder a i => exact h.cancel hw a i
  | cancelReplace a i p q => exact h.modify hw a i hc q
  | massCancel a => exact h.massCancel hw a
  | killSwitch engaged => exact ⟨h, rfl⟩
  | snapshot => exact absurd rfl hs

/-! ### The top of book -/

/-- Quantities at a mapped price. -/
theorem qtyAt_map {l : List Order} (hl : ∀ o ∈ l, T.dom o.price) (hp : T.dom p) :
    qtyAt (l.map T.order) (T.price p) = qtyAt l p := by
  unfold qtyAt
  rw [List.filter_map, List.map_map]
  congr 2
  apply List.filter_congr
  intro o ho
  exact decide_eq_decide.2 (Symmetry.price_inj (hl o ho) hp)

/-- The touch of mapped orders is the mapped touch. -/
theorem touch_map (P : Profile) {l : List Order} (hl : ∀ o ∈ l, T.dom o.price) :
    touch P (l.map T.order) = T.touch (touch P l) := by
  cases l with
  | nil => rfl
  | cons o l =>
    have hq := qtyAt_map hl (hl o List.mem_cons_self)
    unfold touch
    rw [List.map_cons] at hq ⊢
    simp only [List.head?_cons, Option.map_some, Symmetry.touch]
    rw [show (T.order o).price = T.price o.price from rfl, hq]

/-- The best prices of a state are prices of its orders. -/
theorem touch_dom (h : Image T r r') (P : Profile) (s : Side) : ∀ x ∈ touch P (r.side s), T.dom x.1 := by
  intro x hx
  obtain ⟨o, ho, rfl⟩ := Option.map_eq_some_iff.1 hx
  exact h.dom (List.mem_of_head? ho)

/-- So the top of the image is the mapped top, in the mapped order of the sides. -/
theorem topOfBook (h : Image T r r') (P : Profile) :
    r'.topOfBook P = T.touches (r.topOfBook P).1 (r.topOfBook P).2 := by
  have hop : T.side .sell = (T.side .buy).opposite := T.side_opposite .buy
  have hbids : ∀ o ∈ r.bids, T.dom o.price := fun o ho => h.dom (s := .buy) ho
  have hasks : ∀ o ∈ r.asks, T.dom o.price := fun o ho => h.dom (s := .sell) ho
  have hbuy := h.side .buy
  have hsell := h.side .sell
  rw [hop] at hsell
  unfold Symmetry.touches Ref.topOfBook
  -- the sides stay or change places
  cases hs : T.side .buy with
  | buy =>
    rw [hs] at hbuy hsell
    rw [show r'.bids = r.bids.map T.order from hbuy, show r'.asks = r.asks.map T.order from hsell,
      touch_map P hbids, touch_map P hasks]
  | sell =>
    rw [hs] at hbuy hsell
    rw [show r'.asks = r.bids.map T.order from hbuy, show r'.bids = r.asks.map T.order from hsell,
      touch_map P hbids, touch_map P hasks]

end Image

end Ref

namespace Symmetry

variable {T : Symmetry}

/-- Two touches are mapped alike just if they are the same. -/
theorem touch_inj {t t' : TouchSide} (h : ∀ x ∈ t, T.dom x.1) (h' : ∀ x ∈ t', T.dom x.1) :
    T.touch t = T.touch t' ↔ t = t' := by
  constructor
  · intro he
    cases t with
    | none =>
      cases t' with
      | none => rfl
      | some x' => simp [touch] at he
    | some x =>
      cases t' with
      | none => simp [touch] at he
      | some x' =>
        obtain ⟨hp, hq⟩ := Prod.mk.inj (Option.some.inj he)
        rw [Prod.ext ((price_inj (h x rfl) (h' x' rfl)).1 hp) hq]
  · exact fun he => he ▸ rfl

theorem touches_inj {bid ask bid' ask' : TouchSide} (hb : T.touch bid = T.touch bid' ↔ bid = bid')
    (ha : T.touch ask = T.touch ask' ↔ ask = ask') :
    T.touches bid ask = T.touches bid' ask' ↔ bid = bid' ∧ ask = ask' := by
  unfold touches
  split
  · rw [Prod.mk.injEq, hb, ha]
  · rw [Prod.mk.injEq, hb, ha, and_comm]

end Symmetry

namespace Ref

namespace Image

variable {T : Symmetry} {r r' : Ref} {c c' : Command}

/-- The top of book moves between two states exactly when it moves between their images. -/
theorem moves_iff (h : Image T r r') {r₁ r₁' : Ref} (h₁ : Image T r₁ r₁') (P : Profile) :
    r'.topOfBook P = r₁'.topOfBook P ↔ r.topOfBook P = r₁.topOfBook P := by
  have hbuy := Symmetry.touch_inj (h.touch_dom P .buy) (h₁.touch_dom P .buy)
  have hsell := Symmetry.touch_inj (h.touch_dom P .sell) (h₁.touch_dom P .sell)
  rw [h.topOfBook, h₁.topOfBook]
  exact (Symmetry.touches_inj hbuy hsell).trans Prod.mk_inj.symm

/-- From a dispatch to the whole command: the update behind it is mapped too. -/
theorem apply_of_dispatch (h : Image T r r') (P : Profile) (hd : ImageOut T (r.dispatch P c) (r'.dispatch P c')) :
    ImageOut T (r.apply P c) (r'.apply P c') := by
  refine ⟨hd.state, ?_⟩
  have hmoves := h.moves_iff hd.state P
  unfold Ref.apply
  by_cases htop : r.topOfBook P = (r.dispatch P c).1.topOfBook P
  · simp only [ne_eq, hmoves.2 htop, htop, not_true_eq_false, if_false, hd.events]
  · simp only [ne_eq, mt hmoves.1 htop, htop, not_false_eq_true, if_true, hd.events, List.map_append]
    rw [hd.state.topOfBook P]
    rfl

/-- **One command with its top-of-book update, and their images.** -/
theorem apply (h : Image T r r') (hw : r'.WF) (P : Profile) (hc : T.Admits c) (hs : c ≠ .snapshot) :
    ImageOut T (r.apply P c) (r'.apply P (T.command c)) :=
  h.apply_of_dispatch P (h.dispatch hw P hc hs)

end Image

end Ref

end MatchingEngine
