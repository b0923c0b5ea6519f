import MatchingEngine.Main.Priority
import MatchingEngine.Gateway.Routing
import MatchingEngine.Ref.Fills

/-!
# Accounts affect each other by trading only

All accounts share one arena and its chains. A command of one account reaches another's
order through a fill and in no other way: `Ref.Spared`, proved for a sweep in `Ref.Fills`,
holds of every command.

* `WF.dispatch_spared`: the others' orders after any command of an account.
* `WF.dispatch_cancels`: cancellations name the issuer's own orders.
* `accounts_isolated`: from every reachable state, through the gate.
-/

namespace MatchingEngine

/-- The account a command is issued under. -/
def Command.issuer : Command → Option ℕ
  | .newOrder accountId .. => some accountId
  | .cancelOrder accountId _ => some accountId
  | .cancelReplace accountId .. => some accountId
  | .massCancel accountId => some accountId
  | .killSwitch _ => none
  | .snapshot => none

/-- The order a command is about is its issuer's. -/
theorem Command.selfId_issuer {c : Command} {k : Key} {a : ℕ} (hk : commandSelfId c = some k) (ha : c.issuer = some a) :
    ∃ i, k = (a, i) := by
  cases c with
  | newOrder a' i s p q kd t ts => exact ⟨i, by rw [← Option.some.inj hk, ← Option.some.inj ha]⟩
  | cancelOrder a' i => exact ⟨i, by rw [← Option.some.inj hk, ← Option.some.inj ha]⟩
  | cancelReplace a' i p q => exact ⟨i, by rw [← Option.some.inj hk, ← Option.some.inj ha]⟩
  | _ => simp [commandSelfId] at hk

namespace Ref

variable {r : Ref} {a i : ℕ} {s : Side} {o : Order} {c : Command}

/-! ### Own orders -/

theorem rest_foreign (ha : o.account = a) (s s' : Side) : (r.rest s o).foreign a s' = r.foreign a s' := by
  unfold foreign
  rw [rest_side]
  split
  · rename_i hs
    have hsplit := List.takeWhile_append_dropWhile (p := fun x : Order => decide (s.better x.price o.price))
      (l := r.side s)
    unfold insertBack
    rw [List.filter_append, List.filter_cons_of_neg (by simpa using ha), ← List.filter_append, hsplit, hs]
  · rfl

theorem restRemainder_foreign (a i : ℕ) (s : Side) (p q : ℕ) (s' : Side) :
    (r.restRemainder a i s p q).foreign a s' = r.foreign a s' := by
  unfold restRemainder
  split
  · exact rest_foreign rfl s s'
  · rfl

theorem setQty_foreign {k : Key} (hk : k.1 = a) (q : ℕ) (s s' : Side) :
    (r.setQty s k q).foreign a s' = r.foreign a s' := by
  unfold foreign
  rw [setQty_side]
  split
  · rename_i hs
    rw [hs]
    induction r.side s with
    | nil => rfl
    | cons x l ih =>
      by_cases hx : x.account = a
      · rw [List.map_cons, List.filter_cons_of_neg (by split <;> simpa using hx), ih,
          List.filter_cons_of_neg (by simpa using hx)]
      · have hne : x.key ≠ k := fun he => hx ((congrArg Prod.fst he).trans hk)
        rw [List.map_cons, if_neg hne, List.filter_cons_of_pos (by simpa using hx), ih,
          List.filter_cons_of_pos (by simpa using hx)]
  · rfl

theorem WF.clear_foreign (h : r.WF) (limit : ℕ) (s' : Side) : (r.clearOwn a s limit).foreign a s' = r.foreign a s' := by
  refine h.clear_induct (motive := fun r r' _ => r'.foreign a s' = r.foreign a s') a s limit ?_ ?_
  · intro r _ _
    rfl
  · intro r o l r' own _ _ _ ha ih
    rw [ih, remove_foreign ha]

theorem WF.massCancel_foreign (h : r.WF) (a : ℕ) (s : Side) : (r.massCancel a).1.foreign a s = r.foreign a s := by
  unfold foreign
  rw [h.massCancel_side, List.filter_filter]
  simp

/-! ### Whole commands -/

/-- Commands that move own orders only and fill nobody. -/
theorem WF.spared_own (h : r.WF) {r' : Ref} {evs : List Event} (hr : ∀ s, r'.foreign a s = r.foreign a s)
    (hevs : ∀ k : Key, k.1 ≠ a → filledQty k evs = 0) : Spared a r evs r' :=
  (h.spared_self a hevs).congr (fun _ => rfl) hr (fun _ _ => rfl)

/-- **A command of an account spares the others**, but for their fills. -/
theorem WF.dispatch_spared (h : r.WF) (P : Profile) (hc : c.issuer = some a) :
    Spared a r (r.dispatch P c).2 (r.dispatch P c).1 := by
  have hd := r.did P c
  generalize r.dispatch P c = res at hd ⊢
  obtain ⟨r', evs⟩ := res
  simp only at hd ⊢
  cases hd with
  | idle quiet _ => exact h.spared_self a (fun k _ => filledQty_zero (fun ev hev => (quiet ev hev).filledFor k))
  | @entered a' i s p q k t ts limit rests fresh own bound drops =>
    obtain rfl : a' = a := Option.some.inj hc
    refine (h.sweep_foreign a' i s limit q).congr (fun _ => rfl) (fun s' => ?_) (fun k _ => ?_)
    · split
      · exact restRemainder_foreign _ _ _ _ _ s'
      · rfl
    · rw [filledQty_append]
      rfl
  | @posted a' i s p q ts fresh clear =>
    obtain rfl : a' = a := Option.some.inj hc
    refine h.spared_own (fun s' => ?_) (fun k _ => ?_)
    · rw [rest_foreign rfl, h.clear_foreign]
    · rw [filledQty_append, filledQty_cancelled (fun o => ⟨_, _, rfl⟩)]
      rfl
  | @refused a' i s p q ts fresh =>
    obtain rfl : a' = a := Option.some.inj hc
    refine h.spared_own (h.clear_foreign p) (fun k _ => ?_)
    rw [filledQty_append, filledQty_cancelled (fun o => ⟨_, _, rfl⟩)]
    rfl
  | @amended a' i q s o found pos le =>
    obtain rfl : a' = a := Option.some.inj hc
    exact h.spared_own (setQty_foreign (congrArg Prod.fst (find_some found).2) q s) (fun _ _ => rfl)
  | @requeued a' i p q s o found pos changes =>
    obtain rfl : a' = a := Option.some.inj hc
    obtain ⟨ho, hkey⟩ := find_some found
    have hown : o.account = a' := congrArg Prod.fst hkey
    refine ((h.remove ho).sweep_foreign a' i s p q).congr (fun s' => (remove_foreign hown s s').symm)
      (restRemainder_foreign _ _ _ _ _) (fun k _ => ?_)
    rw [filledQty_cons]
    exact Nat.zero_add _
  | @cancelled a' i s o found =>
    obtain rfl : a' = a := Option.some.inj hc
    exact h.spared_own (remove_foreign (congrArg Prod.fst (find_some found).2) s) (fun _ _ => rfl)
  | @emptied a' =>
    obtain rfl : a' = a := Option.some.inj hc
    exact h.spared_own (h.massCancel_foreign a') (fun k _ => filledQty_cancelled (fun id => ⟨_, _, rfl⟩))

theorem WF.sweep_cancels (h : r.WF) (a i : ℕ) (s : Side) (limit q : ℕ) {a' i' : ℕ}
    (hm : .cancelled a' i' ∈ (r.sweep a i s limit q).2.2) : a' = a := by
  revert hm
  refine h.sweep_induct (motive := fun _ _ res => .cancelled a' i' ∈ res.2.2 → a' = a) a i s limit ?_ ?_ ?_ ?_ q
  · intro r q _ _ hm
    simp at hm
  · intro r q o l r' q' evs _ _ _ _ ha ih hm
    rcases List.mem_cons.1 hm with he | hm
    · rw [Event.cancelled.injEq] at he
      exact he.1.trans ha
    · exact ih hm
  · intro r q o l r' q' evs _ _ _ _ _ _ ih hm
    rcases List.mem_append.1 hm with hm | hm
    · simp [fillEvents] at hm
    · exact ih hm
  · intro r q o l _ _ _ _ _ _ hm
    simp [fillEvents] at hm

/-- The top-of-book update fills nobody. -/
theorem WF.apply_spared (h : r.WF) (P : Profile) (hc : c.issuer = some a) :
    Spared a r (r.apply P c).2 (r.apply P c).1 := by
  refine (h.dispatch_spared P hc).congr (fun _ => rfl) (fun _ => rfl) (fun k _ => ?_)
  rcases r.apply_emits P c with he | ⟨bid, ask, he⟩
  · rw [he]
  · rw [he, filledQty_append]
    rfl

/-- **Cancellations name the issuer's own orders.** -/
theorem WF.dispatch_cancels (h : r.WF) (P : Profile) (hc : c.issuer = some a) {a' i' : ℕ}
    (hm : .cancelled a' i' ∈ (r.dispatch P c).2) : a' = a := by
  have hd := r.did P c
  generalize r.dispatch P c = res at hd hm
  obtain ⟨r', evs⟩ := res
  simp only at hd hm
  have hown : ∀ {s : Side} {p : ℕ} {a : ℕ},
      .cancelled a' i' ∈ (r.ownPrefix a s p).map (fun o => Event.cancelled o.account o.id) → a' = a := by
    intro s p a hm
    rw [ownPrefix_cancelled] at hm
    obtain ⟨id, -, he⟩ := List.mem_map.1 hm
    rw [Event.cancelled.injEq] at he
    exact he.1.symm
  cases hd with
  | idle quiet _ => exact (quiet _ hm).elim
  | entered limit rests fresh own bound drops =>
    rcases List.mem_append.1 hm with hm | hm
    · exact (h.sweep_cancels _ _ _ _ _ hm).trans (Option.some.inj hc)
    · simp at hm
  | posted fresh clear =>
    rcases List.mem_append.1 hm with hm | hm
    · exact (hown hm).trans (Option.some.inj hc)
    · simp at hm
  | refused fresh =>
    rcases List.mem_append.1 hm with hm | hm
    · exact (hown hm).trans (Option.some.inj hc)
    · simp at hm
  | amended found pos le => simp at hm
  | requeued found pos changes =>
    rcases List.mem_cons.1 hm with hm | hm
    · simp at hm
    · exact ((h.remove (find_some found).1).sweep_cancels _ _ _ _ _ hm).trans (Option.some.inj hc)
  | cancelled found =>
    rw [List.mem_singleton, Event.cancelled.injEq] at hm
    exact hm.1.trans (Option.some.inj hc)
  | emptied =>
    obtain ⟨id, -, he⟩ := List.mem_map.1 hm
    rw [Event.cancelled.injEq] at he
    exact he.1.symm.trans (Option.some.inj hc)

/-! ### Counts and notionals -/

section Left

variable {evs : List Event} {L : List Order}

theorem leftBy_account {x : Order} (h : o.leftBy evs = some x) : x.account = o.account := by
  unfold Order.leftBy at h
  split at h
  · simp at h
  · rw [← Option.some.inj h]

/-- Fills do not change whose an order is. -/
theorem filter_leftBy (b : ℕ) (L : List Order) : (L.filterMap (Order.leftBy evs)).filter (fun o => o.account = b) =
    (L.filter (fun o => o.account = b)).filterMap (Order.leftBy evs) := by
  induction L with
  | nil => rfl
  | cons o L ih =>
    cases ho : o.leftBy evs with
    | none =>
      rw [List.filterMap_cons_none ho, ih]
      by_cases hb : o.account = b
      · rw [List.filter_cons_of_pos (by simpa using hb), List.filterMap_cons_none ho]
      · rw [List.filter_cons_of_neg (by simpa using hb)]
    | some x =>
      have hx := leftBy_account ho
      rw [List.filterMap_cons_some ho]
      by_cases hb : o.account = b
      · rw [List.filter_cons_of_pos (by simpa [hx] using hb), ih, List.filter_cons_of_pos (by simpa using hb),
          List.filterMap_cons_some ho]
      · rw [List.filter_cons_of_neg (by simpa [hx] using hb), ih, List.filter_cons_of_neg (by simpa using hb)]

/-- The orders that are gone are those filled whole. -/
theorem length_leftBy (hle : ∀ o ∈ L, filledQty o.key evs ≤ o.qty) :
    (L.filterMap (Order.leftBy evs)).length + (L.filter (fun o => o.qty = filledQty o.key evs)).length = L.length := by
  induction L with
  | nil => rfl
  | cons o L ih =>
    have hrest := ih (fun x hx => hle x (List.mem_cons_of_mem _ hx))
    have ho := hle o List.mem_cons_self
    by_cases hfull : o.qty = filledQty o.key evs
    · have hnone : o.leftBy evs = none := by unfold Order.leftBy; rw [if_pos (by omega)]
      rw [List.filterMap_cons_none hnone, List.filter_cons_of_pos (by simpa using hfull), List.length_cons,
        List.length_cons]
      omega
    · have hsome : o.leftBy evs = some { o with qty := o.qty - filledQty o.key evs } := by
        unfold Order.leftBy
        rw [if_neg (by omega)]
      rw [List.filterMap_cons_some hsome, List.filter_cons_of_neg (by simpa using hfull), List.length_cons,
        List.length_cons]
      omega

/-- The value that is gone is that of the fills. -/
theorem notional_leftBy (hle : ∀ o ∈ L, filledQty o.key evs ≤ o.qty) :
    ((L.filterMap (Order.leftBy evs)).map (fun o => o.price * o.qty)).sum +
      (L.map (fun o => o.price * filledQty o.key evs)).sum = (L.map (fun o => o.price * o.qty)).sum := by
  induction L with
  | nil => rfl
  | cons o L ih =>
    have hrest := ih (fun x hx => hle x (List.mem_cons_of_mem _ hx))
    have ho := hle o List.mem_cons_self
    have hprice : o.price * (o.qty - filledQty o.key evs) + o.price * filledQty o.key evs = o.price * o.qty := by
      rw [← Nat.mul_add, Nat.sub_add_cancel ho]
    rw [List.map_cons, List.map_cons, List.sum_cons, List.sum_cons]
    by_cases hfull : o.qty ≤ filledQty o.key evs
    · have hnone : o.leftBy evs = none := by unfold Order.leftBy; rw [if_pos hfull]
      rw [List.filterMap_cons_none hnone]
      rw [Nat.sub_eq_zero_of_le hfull, Nat.mul_zero] at hprice
      omega
    · have hsome : o.leftBy evs = some { o with qty := o.qty - filledQty o.key evs } := by
        unfold Order.leftBy
        rw [if_neg hfull]
      rw [List.filterMap_cons_some hsome, List.map_cons, List.sum_cons]
      simp only at hprice ⊢
      omega

end Left

variable {r' : Ref} {evs : List Event} {b : ℕ}

/-- The orders of another account after the command. -/
theorem Spared.ordersOf (h : Spared a r evs r') (hb : b ≠ a) : r'.orders.filter (fun o => o.account = b) =
    (r.orders.filter (fun o => o.account = b)).filterMap (Order.leftBy evs) := by
  have hforeign : ∀ (r : Ref) s,
      (r.side s).filter (fun o => o.account = b) = (r.foreign a s).filter (fun o => o.account = b) := by
    intro r s
    unfold foreign
    rw [List.filter_filter]
    apply List.filter_congr
    intro o _
    by_cases ho : o.account = b
    · simp [ho, hb]
    · simp [ho]
  have hside : ∀ s, (r'.side s).filter (fun o => o.account = b) =
      ((r.side s).filter (fun o => o.account = b)).filterMap (Order.leftBy evs) := by
    intro s
    rw [hforeign, hforeign, h.sides, filter_leftBy]
  have hbids : r'.bids.filter (fun o => o.account = b) = _ := hside .buy
  have hasks : r'.asks.filter (fun o => o.account = b) = _ := hside .sell
  unfold orders
  rw [List.filter_append, List.filter_append, List.filterMap_append, hbids, hasks]
  rfl

theorem Spared.le_of_orders (h : Spared a r evs r') (hb : b ≠ a) :
    ∀ o ∈ r.orders.filter (fun o => o.account = b), filledQty o.key evs ≤ o.qty := by
  intro o ho
  obtain ⟨hm, ho⟩ := List.mem_filter.1 ho
  obtain ⟨s, hm⟩ := (r.mem_orders o).1 hm
  rw [decide_eq_true_iff] at ho
  exact h.le s o (mem_foreign.2 ⟨hm, ho.trans_ne hb⟩)

end Ref

/-- What a command of account `a` that takes `b` to `b'` and emits `evs` may do to the other accounts. -/
structure IsolatesAccount (P : Profile) (a : ℕ) (b b' : Book) (evs : List Event) : Prop where
  /-- Their resting orders are those of before, in the same priority, each with its fills taken off or, filled whole,
  gone. -/
  orders : ∀ side, (b'.ordersOf side).filter (fun o => o.account ≠ a) =
    ((b.ordersOf side).filter (fun o => o.account ≠ a)).filterMap (Order.leftBy evs)
  le : ∀ side, ∀ o ∈ b.ordersOf side, o.account ≠ a → filledQty o.key evs ≤ o.qty
  /-- No other event is about them. -/
  cancelled : ∀ a' i, .cancelled a' i ∈ evs → a' = a
  replaced : ∀ a' i q kept, .replaced a' i q kept ∈ evs → a' = a
  accepted : ∀ a' i q, .accepted a' i q ∈ evs → a' = a
  rejected : ∀ a' i reason, .rejected a' i reason ∈ evs → a' = a
  /-- Their order counts fall by the orders filled whole, -/
  openOrders : ∀ c, c ≠ a → b'.accountOpenOrderCount c +
    (b.nodes.filter (fun n => n.account = c ∧ n.qty = filledQty n.key evs)).length = b.accountOpenOrderCount c
  /-- their notionals by the value of the fills, -/
  notional : ∀ c, c ≠ a → b'.grossNotional c +
    ((b.nodes.filter (fun n => n.account = c)).map (fun n => n.price * filledQty n.key evs)).sum = b.grossNotional c
  /-- and the cached notionals are these, as stored. -/
  stored : ∀ c, P.u128.val (b.grossNotional c : ℕ) = some (b.accountNotional c) ∧
    P.u128.val (b'.grossNotional c : ℕ) = some (b'.accountNotional c)

section

variable {P : Profile} {N : ℕ∞} {b b' : Book} {r r' : Ref} {a : ℕ} {evs : List Event}

/-- A spared state, read off the books. -/
theorem Sim.isolates (h : Sim P N b r) (h' : Sim P N b' r') (hs : r.Spared a evs r')
    (hcancelled : ∀ a' i, .cancelled a' i ∈ evs → a' = a)
    (hanswers : ∀ ev ∈ evs, ev.isAnswer = true → ∃ i, eventId ev = some (a, i)) : IsolatesAccount P a b b' evs := by
  refine ⟨?_, ?_, hcancelled, ?_, ?_, ?_, ?_, ?_, ?_⟩
  · intro side
    rw [h.ordersOf, h'.ordersOf]
    exact hs.sides side
  · intro side o ho ha
    rw [h.ordersOf] at ho
    exact hs.le side o (Ref.mem_foreign.2 ⟨ho, ha⟩)
  · intro a' i q kept hm
    obtain ⟨j, hj⟩ := hanswers _ hm rfl
    exact congrArg Prod.fst (Option.some.inj hj)
  · intro a' i q hm
    obtain ⟨j, hj⟩ := hanswers _ hm rfl
    exact congrArg Prod.fst (Option.some.inj hj)
  · intro a' i reason hm
    obtain ⟨j, hj⟩ := hanswers _ hm rfl
    exact congrArg Prod.fst (Option.some.inj hj)
  · intro c hc
    have hlen := Ref.length_leftBy (hs.le_of_orders hc)
    rw [← hs.ordersOf hc, ← h.wf.slots_length, ← h'.wf.slots_length] at hlen
    rw [h.openOrderCount, h'.openOrderCount, ← hlen]
    congr 1
    rw [← ((h.nodes_account c).filter _).length_eq, List.filter_map, List.length_map, List.filter_filter]
    congr 1
    apply List.filter_congr
    intro n _
    rw [Bool.eq_iff_iff, Bool.and_eq_true, decide_eq_true_iff]
    constructor
    · rintro ⟨hown, hfull⟩
      exact ⟨decide_eq_true hfull, decide_eq_true hown⟩
    · rintro ⟨hfull, hown⟩
      exact ⟨of_decide_eq_true hown, of_decide_eq_true hfull⟩
  · intro c hc
    have hsum := Ref.notional_leftBy (hs.le_of_orders hc)
    rw [← hs.ordersOf hc] at hsum
    rw [h.grossNotional, h'.grossNotional]
    unfold Ref.notional notionalIn
    rw [← hsum]
    congr 1
    rw [← ((h.nodes_account c).map _).sum_eq, List.map_map]
    rfl
  · intro c
    rw [h.grossNotional, h'.grossNotional]
    exact ⟨h.notional c, h'.notional c⟩

end

/-- **Accounts cannot affect each other except by trading.** From every state reachable through the gate, for every
command issued under an account. -/
theorem accounts_isolated {P : Profile} (hP : P.Total) (config : RiskConfig) {cmds : List Command}
    (hcmds : ∀ c ∈ cmds, c.Decodable) {s : System} {evss : List (List (ℕ × Event))}
    (hrun : (System.new config).runFrom P cmds = .ok (s, evss)) {c : Command} (hc : c.Decodable) {a : ℕ}
    (ha : c.issuer = some a) {s' : System} {evs : List (ℕ × Event)} (hstep : s.processCommand P c = .ok (s', evs)) :
    IsolatesAccount P a s.engine.book s'.engine.book (evs.map Prod.snd) := by
  obtain ⟨r, hs⟩ := System.sim_of_run hP hcmds hrun
  have hself : ∀ {k}, commandSelfId c = some k → ∃ i, k = (a, i) := fun hk => Command.selfId_issuer hk ha
  rcases System.processCommand_gate hstep with ⟨ev, hg, he, rfl⟩ | ⟨-, evs', happly, rfl⟩
  · obtain ⟨a', i, reason, rfl, hid⟩ := RiskState.preApplyCheck_answers hg
    obtain ⟨j, hj⟩ := hself hid
    refine hs.isolates (he ▸ hs) (hs.wf.spared_self a (fun k _ => rfl)) (by simp) ?_
    simp [eventId, hj]
  · obtain ⟨rfl, hs'⟩ := hs.applied hP hc happly
    rw [System.map_snd_numbered]
    refine hs.isolates hs' (hs.wf.apply_spared P ha) (fun a' i hm => ?_) (fun ev hev hans => ?_)
    · rcases r.apply_emits P c with hevs | ⟨bid, ask, hevs⟩
      · exact hs.wf.dispatch_cancels P ha (hevs ▸ hm)
      · rw [hevs, List.mem_append, List.mem_singleton] at hm
        exact hs.wf.dispatch_cancels P ha (hm.resolve_right (by simp))
    · have hid := hs.wf.apply_answers P c ev hev hans
      cases hk : commandSelfId c with
      | none =>
        rw [hk] at hid
        cases ev <;> simp [eventId, Event.isAnswer] at hid hans
      | some k =>
        obtain ⟨i, rfl⟩ := hself hk
        exact ⟨i, hid.trans hk⟩

/-- A sweep by account 3 takes one of account 2's asks, its own ask behind it, and half of another of account 2; the ask
of account 1, under the id of the first, is not reached. -/
theorem accounts_isolated_sweep :
    ∃ s evss s₁ evs₁, (System.new .default).runFrom .release
        [.newOrder 2 1 .sell 100 5 .limit .gtc 0, .newOrder 3 1 .sell 100 4 .limit .gtc 0,
         .newOrder 2 2 .sell 101 6 .limit .gtc 0, .newOrder 1 1 .sell 101 2 .limit .gtc 0] = .ok (s, evss) ∧
      s.processCommand .release (.newOrder 3 2 .buy 101 8 .limit .ioc 0) = .ok (s₁, evs₁) ∧
      IsolatesAccount .release 3 s.engine.book s₁.engine.book (evs₁.map Prod.snd) ∧
      (s₁.engine.book.ordersOf .sell).filter (fun o => o.account ≠ 3) = [⟨2, 2, 101, 3⟩, ⟨1, 1, 101, 2⟩] ∧
      s₁.engine.book.accountOpenOrderCount 2 = 1 := by
  obtain ⟨⟨s, evss⟩, hrun, hstep⟩ := exists_ok_of_decide (x := (System.new .default).runFrom .release
      [.newOrder 2 1 .sell 100 5 .limit .gtc 0, .newOrder 3 1 .sell 100 4 .limit .gtc 0,
       .newOrder 2 2 .sell 101 6 .limit .gtc 0, .newOrder 1 1 .sell 101 2 .limit .gtc 0])
    (p := fun v => (v.1.processCommand .release (.newOrder 3 2 .buy 101 8 .limit .ioc 0)).toOption.map
      (fun w => (w.1.engine.book.ordersOf .sell, w.1.engine.book.accountOpenOrderCount 2)) =
        some ([⟨2, 2, 101, 3⟩, ⟨1, 1, 101, 2⟩], 1)) (by decide +kernel)
  obtain ⟨⟨s₁, evs₁⟩, hstep₁, hafter⟩ := exists_ok_of_map_toOption hstep
  obtain ⟨hsell, hcount⟩ := Prod.mk.inj hafter
  refine ⟨s, evss, s₁, evs₁, hrun, hstep₁, ?_, ?_, hcount⟩
  · exact accounts_isolated Profile.release_total .default (by decide) hrun (by decide) rfl hstep₁
  · rw [hsell]
    decide

end MatchingEngine
