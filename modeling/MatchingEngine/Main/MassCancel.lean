import MatchingEngine.Main.Priority

/-!
# Mass cancel removes one account's orders

`mass_cancel` walks a copy of the account's slot array while each `unlink` reorders the
live one. On the reference state both it and any sequence of single cancels are a fold of
`removeKey`, and what such a fold leaves of a side does not depend on the order of the keys.

* `WF.foldl_removeKey_all`: cancels that name every order of an account, in any order.
* `Sim.cancels`: single cancels, in any order.
* `mass_cancel_exact`: what is emitted, what is left, and the comparison of the two.
-/

namespace MatchingEngine

namespace Ref

variable {r : Ref} {a i : ℕ}

theorem find_isSome : (r.find (a, i)).isSome ↔ ∃ o ∈ r.orders, o.key = (a, i) := by
  rw [Option.isSome_iff_ne_none, ne_eq, find_eq_none]
  push Not
  rfl

theorem WF.mem_removeKey (h : r.WF) {k : Key} {o : Order} : o ∈ (r.removeKey k).orders ↔ o ∈ r.orders ∧ o.key ≠ k := by
  rw [mem_orders, mem_orders]
  constructor
  · rintro ⟨s, ho⟩
    rw [h.removeKey_side, List.mem_filter, decide_eq_true_iff] at ho
    exact ⟨⟨s, ho.1⟩, ho.2⟩
  · rintro ⟨⟨s, ho⟩, hk⟩
    refine ⟨s, ?_⟩
    rw [h.removeKey_side, List.mem_filter, decide_eq_true_iff]
    exact ⟨ho, hk⟩

/-- A cancel of a resting order. -/
theorem cancel_found (hf : (r.find (a, i)).isSome) : r.cancel a i = (r.removeKey (a, i), [.cancelled a i]) := by
  obtain ⟨⟨s, o⟩, hf⟩ := Option.isSome_iff_exists.1 hf
  simp only [cancel, removeKey, hf]

/-- What cancelling every order of an account leaves of a side, in whatever order they are named. -/
theorem WF.foldl_removeKey_all (h : r.WF) {ids : List ℕ} (hids : ids.Perm (r.slots a)) (s : Side) :
    (ids.foldl (fun r id => r.removeKey (a, id)) r).side s = (r.side s).filter (fun o => o.account ≠ a) := by
  rw [(h.foldl_removeKey a ids).2.2, ← h.massCancel_side]
  rw [show (r.massCancel a).1 = (r.slots a).foldl (fun r id => r.removeKey (a, id)) r from rfl,
    (h.foldl_removeKey a (r.slots a)).2.2]
  apply List.filter_congr
  intro o _
  simp only [hids.mem_iff]

/-- Other accounts keep their slot arrays. -/
theorem foldl_removeKey_slots (ids : List ℕ) {c : ℕ} (hc : c ≠ a) :
    (ids.foldl (fun r id => r.removeKey (a, id)) r).slots c = r.slots c := by
  induction ids generalizing r with
  | nil => rfl
  | cons i ids ih =>
    rw [List.foldl_cons, ih]
    unfold removeKey
    cases hf : r.find (a, i) with
    | none => rfl
    | some e =>
      obtain ⟨s, o⟩ := e
      have ha : o.account = a := congrArg Prod.fst (find_some hf).2
      simp only [remove_slots]
      rw [if_neg (fun he => hc (he.trans ha))]

theorem WF.massCancel_wf (h : r.WF) (a : ℕ) : (r.massCancel a).1.WF := (h.foldl_removeKey a (r.slots a)).1

/-- The account is left with nothing. -/
theorem WF.massCancel_slots (h : r.WF) (a : ℕ) : (r.massCancel a).1.slots a = [] := by
  rw [List.eq_nil_iff_forall_not_mem]
  intro i hi
  obtain ⟨o, ho, hk⟩ := ((h.massCancel_wf a).slots_mem a i).1 hi
  obtain ⟨s, ho⟩ := (mem_orders _ o).1 ho
  rw [h.massCancel_side, List.mem_filter, decide_eq_true_iff] at ho
  exact ho.2 (congrArg Prod.fst hk)

/-- The notional of the account is gone, that of every other account is what it was. -/
theorem WF.massCancel_notional (h : r.WF) (a c : ℕ) :
    (r.massCancel a).1.notional c = if c = a then 0 else r.notional c := by
  have hbids : (r.massCancel a).1.bids = r.bids.filter (fun o => o.account ≠ a) := h.massCancel_side a .buy
  have hasks : (r.massCancel a).1.asks = r.asks.filter (fun o => o.account ≠ a) := h.massCancel_side a .sell
  unfold notional notionalIn orders
  rw [hbids, hasks, ← List.filter_append, List.filter_filter]
  by_cases hc : c = a
  · rw [if_pos hc, List.filter_eq_nil_iff.2]
    · rfl
    · intro o _
      simp [hc]
  · rw [if_neg hc]
    congr 2
    apply List.filter_congr
    intro o _
    by_cases ho : o.account = c
    · simp [ho, hc]
    · simp [ho]

end Ref

/-- The ids of an account's resting orders, in no particular order. -/
def Book.restingIds (b : Book) (a : ℕ) : List ℕ := (b.nodes.filter (fun n => n.account = a)).map Node.id

/-- Orders of an account cancelled one by one. -/
def Book.cancelEach (P : Profile) (b : Book) (a : ℕ) (ids : List ℕ) : Except Panic (Book × List (List Event)) :=
  run (fun b id => b.cancel P a id) b ids

section

variable {P : Profile} {N : ℕ∞} {b : Book} {r : Ref} {a : ℕ}

theorem Sim.restingIds (h : Sim P N b r) (a : ℕ) : (b.restingIds a).Perm (r.slots a) := by
  refine List.Perm.trans ?_ (h.wf.slots_perm a).symm
  refine List.Perm.trans (List.Perm.of_eq ?_) ((h.nodes_account a).map Order.id)
  unfold Book.restingIds
  rw [List.map_map]
  rfl

/-- The stored notional depends on the resting orders only. -/
theorem Sim.accountNotional_eq {b' : Book} {r' : Ref} (h : Sim P N b r) (h' : Sim P N b' r') {c c' : ℕ}
    (hn : r'.notional c' = r.notional c) : b'.accountNotional c' = b.accountNotional c := by
  have hv := h'.notional c'
  rw [hn, h.notional c] at hv
  exact (Option.some.inj hv).symm

/-- **Single cancels, in the order they are named.** -/
theorem Sim.cancels (h : Sim P N b r) {ids : List ℕ} (hnd : ids.Nodup) (hids : ∀ i ∈ ids, (r.find (a, i)).isSome) :
    ∃ b', b.cancelEach P a ids = .ok (b', ids.map (fun i => [.cancelled a i])) ∧
      Sim P N b' (ids.foldl (fun r id => r.removeKey (a, id)) r) := by
  induction ids generalizing b r with
  | nil => exact ⟨b, rfl, h⟩
  | cons i ids ih =>
    rw [List.nodup_cons] at hnd
    have hfound := hids i (by simp)
    obtain ⟨b₁, hb₁, hs₁⟩ := h.cancel (a := a) (i := i)
    rw [Ref.cancel_found hfound] at hb₁ hs₁
    -- the orders still to be cancelled are still there
    have hleft : ∀ j ∈ ids, ((r.removeKey (a, i)).find (a, j)).isSome := by
      intro j hj
      obtain ⟨o, ho, hk⟩ := Ref.find_isSome.1 (hids j (List.mem_cons_of_mem _ hj))
      refine Ref.find_isSome.2 ⟨o, h.wf.mem_removeKey.2 ⟨ho, ?_⟩, hk⟩
      rw [hk]
      intro he
      exact hnd.1 ((Prod.mk.inj he).2 ▸ hj)
    obtain ⟨b₂, hb₂, hs₂⟩ := ih hs₁ hnd.2 hleft
    exact ⟨b₂, run_cons_ok hb₁ hb₂, hs₂⟩

end

/-- **Mass cancel removes exactly one account's orders.** On every reachable book it ends without a panic and
emits one cancellation per resting order of the account, in the order of its slot array. The account is left
with no order and no notional; the other orders, in their priority, and the other accounts' arrays and
notionals are what they were. Cancelling the orders one by one, in any order, leaves the same resting orders.
A second mass cancel emits nothing. -/
theorem mass_cancel_exact {P : Profile} (hP : P.Total) {cmds : List Command} (hcmds : ∀ c ∈ cmds, c.Decodable)
    {e : Engine} {evss : List (List Event)} (hrun : Engine.new.runFrom P cmds = .ok (e, evss)) (a : ℕ) :
    ((e.book.slotsOf a).map e.book.idAt).Perm (e.book.restingIds a) ∧
    ∃ b', e.book.massCancel P a = .ok (b', ((e.book.slotsOf a).map e.book.idAt).map (fun id => .cancelled a id)) ∧
      (∀ n ∈ b'.nodes, n.account ≠ a) ∧ b'.accountOpenOrderCount a = 0 ∧ b'.accountNotional a = 0 ∧
      (∀ side, b'.ordersOf side = (e.book.ordersOf side).filter (fun o => o.account ≠ a)) ∧
      (∀ c, c ≠ a → (b'.slotsOf c).map b'.idAt = (e.book.slotsOf c).map e.book.idAt ∧
        b'.accountNotional c = e.book.accountNotional c) ∧
      (∀ ids, ids.Perm (e.book.restingIds a) →
        ∃ b'', e.book.cancelEach P a ids = .ok (b'', ids.map (fun id => [.cancelled a id])) ∧
          ∀ side, b''.ordersOf side = b'.ordersOf side) ∧
      ∃ b'', b'.massCancel P a = .ok (b'', []) := by
  obtain ⟨r, hs⟩ := sim_of_run hP hcmds hrun
  obtain ⟨b', hb', hs'⟩ := hs.massCancel (a := a)
  have hslots := hs.slotsOf a
  rw [hslots]
  refine ⟨(hs.restingIds a).symm, b', hb', ?_, ?_, ?_, ?_, ?_, ?_, ?_⟩
  · intro n hn
    obtain ⟨x, hx⟩ := Book.mem_nodes.1 hn
    have ho := hs'.node hx
    rw [hs.wf.massCancel_side, List.mem_filter, decide_eq_true_iff] at ho
    exact ho.2
  · rw [hs'.openOrderCount, hs.wf.massCancel_slots]
    rfl
  · have hv := hs'.notional a
    rw [hs.wf.massCancel_notional, if_pos rfl] at hv
    exact (Option.some.inj (P.u128.zero.symm.trans hv)).symm
  · intro side
    rw [hs.ordersOf, hs'.ordersOf, hs.wf.massCancel_side]
  · intro c hc
    refine ⟨?_, hs.accountNotional_eq hs' ?_⟩
    · rw [hs.slotsOf, hs'.slotsOf]
      exact Ref.foldl_removeKey_slots _ hc
    · rw [hs.wf.massCancel_notional, if_neg hc]
  · intro ids hids
    have hperm := hids.trans (hs.restingIds a)
    obtain ⟨b'', hb'', hs''⟩ := hs.cancels (hperm.nodup_iff.2 (hs.wf.slots_nodup a)) (fun i hi =>
      Ref.find_isSome.2 ((hs.wf.slots_mem a i).1 (hperm.mem_iff.1 hi)))
    refine ⟨b'', hb'', fun side => ?_⟩
    rw [hs'.ordersOf, hs''.ordersOf, hs.wf.massCancel_side, hs.wf.foldl_removeKey_all hperm]
  · obtain ⟨b'', hb'', -⟩ := hs'.massCancel (a := a)
    have hnone : ((r.massCancel a).1.massCancel a).2 = [] := by
      show ((r.massCancel a).1.slots a).map (fun id => Event.cancelled a id) = []
      rw [hs.wf.massCancel_slots]
      rfl
    rw [hnone] at hb''
    exact ⟨b'', hb''⟩

/-- An earlier cancel has moved the last slot to the front; another account uses the same order id. -/
theorem mass_cancel_exact_reordered :
    ∃ e evss b', Engine.new.runFrom .release
        [.newOrder 1 1 .sell 100 5 .limit .gtc 0, .newOrder 1 2 .sell 101 4 .limit .gtc 0,
         .newOrder 2 2 .sell 101 3 .limit .gtc 0, .newOrder 1 3 .buy 99 2 .limit .gtc 0, .cancelOrder 1 1] =
        .ok (e, evss) ∧
      e.book.massCancel .release 1 = .ok (b', [.cancelled 1 3, .cancelled 1 2]) ∧
      b'.ordersOf .buy = [] ∧ b'.ordersOf .sell = [⟨2, 2, 101, 3⟩] ∧ b'.accountNotional 1 = 0 := by
  obtain ⟨⟨e, evss⟩, hrun, hslots, hbuy, hsell⟩ := exists_ok_of_decide (x := Engine.new.runFrom .release
      [.newOrder 1 1 .sell 100 5 .limit .gtc 0, .newOrder 1 2 .sell 101 4 .limit .gtc 0,
       .newOrder 2 2 .sell 101 3 .limit .gtc 0, .newOrder 1 3 .buy 99 2 .limit .gtc 0, .cancelOrder 1 1])
    (p := fun v => (v.1.book.slotsOf 1).map v.1.book.idAt = [3, 2] ∧ v.1.book.ordersOf .buy = [⟨1, 3, 99, 2⟩] ∧
      v.1.book.ordersOf .sell = [⟨1, 2, 101, 4⟩, ⟨2, 2, 101, 3⟩]) (by decide +kernel)
  obtain ⟨-, b', hb', -, -, hzero, hleft, -⟩ := mass_cancel_exact Profile.release_total (by decide) hrun 1
  rw [hslots] at hb'
  refine ⟨e, evss, b', hrun, hb', ?_, ?_, hzero⟩
  · rw [hleft, hbuy]
    decide
  · rw [hleft, hsell]
    decide

end MatchingEngine
