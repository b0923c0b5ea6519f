import MatchingEngine.Risk.Limits

/-!
# A snapshot is a double-entry dump

A snapshot reads the caches of the levels and the caches of the accounts. On a reachable book
without a zero price both are exact, the walk over the levels trips no assertion, and the two
sections of the dump add up to the same orders and the same notional.

* `LevelRow`, `AccountRow`: what the two kinds of events report.
* `Book.Dumped`: rows that report a book exactly, and what follows of their sums.
* `snapshot_double_entry`: every snapshot of a reachable book.
-/

namespace MatchingEngine

structure LevelRow where
  price : ℕ
  qty : ℕ
  orderCount : ℕ

structure AccountRow where
  accountId : ℕ
  openOrderCount : ℕ
  notional : ℕ

def LevelRow.event (side : Side) (row : LevelRow) : Event := .snapshotLevel side row.price row.qty row.orderCount

def AccountRow.event (row : AccountRow) : Event := .snapshotAccount row.accountId row.openOrderCount row.notional

namespace Book

/-- The number of orders resting on a side at a price. -/
def restingCount (b : Book) (s : Side) (p : ℕ) : ℕ := (b.nodes.filter (fun n => n.side = s ∧ n.price = p)).length

/-- The number of orders an account has resting. -/
def restingOf (b : Book) (a : ℕ) : ℕ := (b.nodes.filter (fun n => n.account = a)).length

/-- The rows report the book. -/
structure Dumped (b : Book) (levels : Side → List LevelRow) (accounts : List AccountRow) : Prop where
  /-- One row for each level of the price maps, in strictly increasing price. -/
  occupied : ∀ s, (levels s).map LevelRow.price = (b.map s).keys
  increasing : ∀ s, ((levels s).map LevelRow.price).Pairwise (· < ·)
  level : ∀ s, ∀ row ∈ levels s, row.qty = b.restingQty s row.price ∧ row.orderCount = b.restingCount s row.price ∧
    0 < row.orderCount
  filed : ∀ n ∈ b.nodes, ∃ row ∈ levels n.side, row.price = n.price
  /-- One row for each account that has an order resting, and no other. -/
  once : (accounts.map AccountRow.accountId).Nodup
  account_iff : ∀ a, a ∈ accounts.map AccountRow.accountId ↔ ∃ n ∈ b.nodes, n.account = a
  account : ∀ row ∈ accounts, row.openOrderCount = b.restingOf row.accountId ∧
    row.notional = b.grossNotional row.accountId
  /-- Both sections count the orders of the order index, and add up to one notional. -/
  level_counts : ((levels .buy ++ levels .sell).map LevelRow.orderCount).sum = b.orderIndex.entries.card
  account_counts : (accounts.map AccountRow.openOrderCount).sum = b.orderIndex.entries.card
  notionals : ((levels .buy ++ levels .sell).map (fun row => row.price * row.qty)).sum =
    (accounts.map AccountRow.notional).sum

end Book

namespace Ref

variable {r : Ref} {s : Side}

def levelRows (r : Ref) (s : Side) : List LevelRow :=
  (r.prices s).map (fun p => ⟨p, qtyAt (r.side s) p, ((r.side s).filter (fun o => o.price = p)).length⟩)

/-- The accounts of a snapshot, in order of first appearance. -/
def snapshotAccounts (r : Ref) : List ℕ :=
  firstSeen [] ((r.snapshotOrders .buy ++ r.snapshotOrders .sell).map Order.account)

def accountRows (r : Ref) : List AccountRow :=
  r.snapshotAccounts.map (fun a => ⟨a, (r.slots a).length, r.notional a⟩)

theorem firstSeen_nodup {seen l : List ℕ} (h : seen.Nodup) : (firstSeen seen l).Nodup := by
  induction l generalizing seen with
  | nil => exact h
  | cons a l ih =>
    refine ih ?_
    split
    · exact h
    · next ha =>
      refine List.nodup_append.2 ⟨h, List.nodup_singleton a, ?_⟩
      rintro x hx y hy rfl
      exact ha (List.mem_singleton.1 hy ▸ hx)

theorem mem_prices {p : ℕ} : p ∈ r.prices s ↔ ∃ o ∈ r.side s, o.price = p := by
  cases s <;> simp [prices, side]

theorem prices_nodup : (r.prices s).Nodup := by
  cases s with
  | buy => exact List.nodup_reverse.2 (List.nodup_dedup _)
  | sell => exact List.nodup_dedup _

theorem mem_snapshotOrders {o : Order} : o ∈ r.snapshotOrders s ↔ o ∈ r.side s := by
  unfold snapshotOrders
  simp only [List.mem_flatMap, List.mem_filter, decide_eq_true_eq]
  constructor
  · rintro ⟨p, -, ho, -⟩
    exact ho
  · intro ho
    exact ⟨o.price, mem_prices.2 ⟨o, ho, rfl⟩, ho, rfl⟩

theorem mem_snapshotAccounts {a : ℕ} : a ∈ r.snapshotAccounts ↔ ∃ o ∈ r.orders, o.account = a := by
  unfold snapshotAccounts
  rw [Sim.mem_firstSeen, List.mem_map]
  simp only [List.not_mem_nil, false_or, List.mem_append, mem_snapshotOrders]
  constructor
  · rintro ⟨o, ho | ho, he⟩
    · exact ⟨o, r.side_sub_orders .buy o ho, he⟩
    · exact ⟨o, r.side_sub_orders .sell o ho, he⟩
  · rintro ⟨o, ho, he⟩
    exact ⟨o, List.mem_append.1 ho, he⟩

/-- The events of an exact snapshot are those of the rows. -/
theorem snapshot_exact (r : Ref) (debug : Bool) : r.snapshot (.exact debug) =
    (r.levelRows .buy).map (LevelRow.event .buy) ++ (r.levelRows .sell).map (LevelRow.event .sell) ++
      r.accountRows.map AccountRow.event ++
      [.snapshotSummary (r.topOfBook (.exact debug)).1 (r.topOfBook (.exact debug)).2 r.lastTrade
        ((r.levelRows .buy).length + (r.levelRows .sell).length) r.accountRows.length] := by
  have h64 : ∀ n, stored (Profile.exact debug).u64 n = n := fun n => by simp [stored, Profile.exact, Word.exact_val]
  have h128 : ∀ n, stored (Profile.exact debug).u128 n = n := fun n => by simp [stored, Profile.exact, Word.exact_val]
  unfold snapshot snapshotLevels levelRows accountRows snapshotAccounts LevelRow.event AccountRow.event
  simp only [h64, h128, List.map_map, List.length_map, Function.comp_def]

/-! ### The sums of the two sections -/

theorem levelRows_counts (r : Ref) (s : Side) : ((r.levelRows s).map LevelRow.orderCount).sum = (r.side s).length := by
  have hsum := sum_by_key (f := Order.price) (l := r.side s) prices_nodup (fun o ho => mem_prices.2 ⟨o, ho, rfl⟩)
    (fun _ => 1)
  unfold levelRows
  simpa [List.map_map, Function.comp_def] using hsum

theorem levelRows_notional (r : Ref) (s : Side) :
    ((r.levelRows s).map (fun row => row.price * row.qty)).sum = ((r.side s).map (fun o => o.price * o.qty)).sum := by
  rw [← sum_by_key (f := Order.price) (l := r.side s) prices_nodup (fun o ho => mem_prices.2 ⟨o, ho, rfl⟩)]
  unfold levelRows
  rw [List.map_map]
  congr 1
  refine List.map_congr_left (fun p _ => ?_)
  -- within a level the price is the level's
  have hlevel : ((r.side s).filter (fun o => o.price = p)).map (fun o => o.price * o.qty) =
      ((r.side s).filter (fun o => o.price = p)).map (fun o => p * o.qty) :=
    List.map_congr_left (fun o ho => by rw [of_decide_eq_true (List.mem_filter.1 ho).2])
  rw [hlevel, List.sum_map_mul_left]
  rfl

theorem WF.accountRows_counts (h : r.WF) : (r.accountRows.map AccountRow.openOrderCount).sum = r.orders.length := by
  have hsum := sum_by_key (f := Order.account) (l := r.orders) (firstSeen_nodup List.nodup_nil)
    (fun o ho => mem_snapshotAccounts.2 ⟨o, ho, rfl⟩) (fun _ => 1)
  unfold accountRows
  rw [List.map_map, show (AccountRow.openOrderCount ∘ fun a => ⟨a, (r.slots a).length, r.notional a⟩) =
    fun a => (r.orders.filter (fun o => o.account = a)).length from funext h.slots_length]
  simpa [snapshotAccounts] using hsum

theorem accountRows_notional (r : Ref) :
    (r.accountRows.map AccountRow.notional).sum = (r.orders.map (fun o => o.price * o.qty)).sum := by
  rw [← sum_by_key (f := Order.account) (l := r.orders) (firstSeen_nodup List.nodup_nil)
    (fun o ho => mem_snapshotAccounts.2 ⟨o, ho, rfl⟩)]
  unfold accountRows
  rw [List.map_map]
  rfl

end Ref

namespace Sim

variable {P : Profile} {N : ℕ∞} {b : Book} {r : Ref}

/-- The order index holds one entry for each resting order. -/
theorem orderIndex_card (h : Sim P N b r) : b.orderIndex.entries.card = r.orders.length := by
  have hkeys : b.orderIndex.keys = (r.orders.map Order.key).toFinset := by
    ext k
    rw [Finmap.mem_keys, List.mem_toFinset, List.mem_map, ← Finmap.lookup_isSome]
    rcases h.lookup k with ⟨hnone, hfind⟩ | ⟨x, n, hsome, -, -, hfind⟩
    · rw [hnone]
      exact iff_of_false (by simp) (fun ⟨o, ho, he⟩ => Ref.find_eq_none.1 hfind o ho he)
    · rw [hsome]
      refine iff_of_true rfl ?_
      by_contra hne
      rw [Ref.find_eq_none.2 (fun o ho he => hne ⟨o, ho, he⟩)] at hfind
      cases hfind
  calc b.orderIndex.entries.card = b.orderIndex.keys.card := (Multiset.card_map _ _).symm
    _ = r.orders.length := by rw [hkeys, List.toFinset_card_of_nodup h.wf.keys, List.length_map]

theorem restingCount (h : Sim P N b r) (s : Side) (p : ℕ) :
    b.restingCount s p = ((r.side s).filter (fun o => o.price = p)).length := by
  have hperm := (h.nodes_side s).filter (fun o => o.price = p)
  rw [← hperm.length_eq, List.filter_map, List.length_map, List.filter_filter]
  unfold Book.restingCount
  congr 1
  refine List.filter_congr (fun n _ => ?_)
  rw [Bool.eq_iff_iff, Bool.and_eq_true, decide_eq_true_iff, decide_eq_true_iff, Function.comp_apply,
    decide_eq_true_iff]
  exact and_comm

theorem restingOf (h : Sim P N b r) (a : ℕ) : b.restingOf a = (r.slots a).length := by
  rw [h.wf.slots_length, ← (h.nodes_account a).length_eq, List.length_map]
  rfl

/-- **The rows of the reference state report the book.** -/
theorem dumped (h : Sim P N b r) : b.Dumped r.levelRows r.accountRows := by
  have hprices : ∀ s, (r.levelRows s).map LevelRow.price = r.prices s := by
    intro s
    unfold Ref.levelRows
    rw [List.map_map]
    exact List.map_id _
  have hkeys : ∀ s, r.prices s = (b.map s).keys := by
    intro s
    rw [← h.levelsAscending_fst]
    cases s <;> exact Std.ExtTreeMap.map_fst_toList_eq_keys
  have hids : r.accountRows.map AccountRow.accountId = r.snapshotAccounts := by
    unfold Ref.accountRows
    rw [List.map_map]
    exact List.map_id _
  have hnode : ∀ a, (∃ o ∈ r.orders, o.account = a) ↔ ∃ n ∈ b.nodes, n.account = a := by
    intro a
    simp only [← h.nodes_perm.mem_iff, List.mem_map, exists_exists_and_eq_and]
    rfl
  refine ⟨fun s => (hprices s).trans (hkeys s), fun s => ?_, ?_, ?_, ?_, ?_, ?_, ?_, ?_, ?_⟩
  · rw [hprices, hkeys]
    exact Std.ExtTreeMap.ordered_keys.imp (fun hpq => Nat.compare_eq_lt.1 hpq)
  · intro s row hrow
    obtain ⟨p, hp, rfl⟩ := List.mem_map.1 hrow
    refine ⟨(h.restingQty s p).symm, (h.restingCount s p).symm, ?_⟩
    obtain ⟨o, ho, he⟩ := Ref.mem_prices.1 hp
    exact List.length_pos_of_mem (List.mem_filter.2 ⟨ho, decide_eq_true he⟩)
  · intro n hn
    obtain ⟨x, hx⟩ := Book.mem_nodes.1 hn
    have hp : n.price ∈ r.prices n.side := Ref.mem_prices.2 ⟨n.order, h.node hx, rfl⟩
    exact ⟨_, List.mem_map.2 ⟨n.price, hp, rfl⟩, rfl⟩
  · rw [hids]
    exact Ref.firstSeen_nodup List.nodup_nil
  · intro a
    rw [hids, Ref.mem_snapshotAccounts, hnode]
  · intro row hrow
    obtain ⟨a, ha, rfl⟩ := List.mem_map.1 hrow
    exact ⟨(h.restingOf a).symm, (h.grossNotional a).symm⟩
  · rw [List.map_append, List.sum_append, r.levelRows_counts, r.levelRows_counts, h.orderIndex_card]
    exact List.length_append.symm
  · rw [h.wf.accountRows_counts, h.orderIndex_card]
  · rw [List.map_append, List.sum_append, r.levelRows_notional, r.levelRows_notional, r.accountRows_notional]
    exact (List.sum_append.symm.trans (congrArg List.sum List.map_append.symm))

end Sim

/-- **A snapshot is a consistent double-entry dump.** On every reachable book without a zero price, sums read
exactly: a snapshot leaves the engine as it is, trips no assertion, and emits the rows of the bid levels, of the
ask levels and of the accounts, then a summary with their numbers. -/
theorem snapshot_double_entry (debug : Bool) {cmds : List Command} (hcmds : ∀ c ∈ cmds, c.Decodable) {e : Engine}
    {evss : List (List Event)} (hrun : Engine.new.runFrom (.exact debug) cmds = .ok (e, evss))
    (hz : ∀ n ∈ e.book.nodes, n.price ≠ 0) :
    ∃ levels accounts, e.book.Dumped levels accounts ∧
      e.apply (.exact debug) .snapshot = .ok (e,
        (levels .buy).map (LevelRow.event .buy) ++ (levels .sell).map (LevelRow.event .sell) ++
          accounts.map AccountRow.event ++
          [.snapshotSummary e.book.topOfBook.1 e.book.topOfBook.2 e.book.lastTrade
            ((levels .buy).length + (levels .sell).length) accounts.length]) := by
  obtain ⟨r, hs⟩ := sim_of_run (Profile.exact_total debug) hcmds hrun
  refine ⟨r.levelRows, r.accountRows, hs.dumped, ?_⟩
  have hzero : ∀ o ∈ r.orders, o.price ≠ 0 := by
    intro o ho
    obtain ⟨n, hn, rfl⟩ := List.mem_map.1 (hs.nodes_perm.mem_iff.2 ho)
    exact hz n hn
  have hsnap : e.book.snapshot (.exact debug) = .ok (r.snapshot (.exact debug)) := hs.snapshot hzero
  unfold Engine.apply Engine.dispatch
  simp only [hsnap, bind, Except.bind, pure, Except.pure, ne_eq, not_true_eq_false, if_false]
  rw [r.snapshot_exact, hs.topOfBook, hs.lastTrade]

/-- Two accounts, three levels. -/
theorem snapshot_double_entry_three_levels :
    ∃ e evss levels accounts, Engine.new.runFrom (.exact true)
        [.newOrder 1 1 .sell 101 5 .limit .gtc 0, .newOrder 2 1 .sell 102 5 .limit .gtc 0,
         .newOrder 2 2 .sell 102 1 .limit .gtc 0, .newOrder 1 2 .buy 99 3 .limit .gtc 0] = .ok (e, evss) ∧
      e.book.Dumped levels accounts ∧
      (e.apply (.exact true) .snapshot).map Prod.snd = .ok
        [.snapshotLevel .buy 99 3 1, .snapshotLevel .sell 101 5 1, .snapshotLevel .sell 102 6 2,
         .snapshotAccount 1 2 802, .snapshotAccount 2 2 612,
         .snapshotSummary (some (99, 3)) (some (101, 5)) none 3 2] := by
  obtain ⟨⟨e, evss⟩, hrun, hz, hevs⟩ := exists_ok_of_decide (x := Engine.new.runFrom (.exact true)
      [.newOrder 1 1 .sell 101 5 .limit .gtc 0, .newOrder 2 1 .sell 102 5 .limit .gtc 0,
       .newOrder 2 2 .sell 102 1 .limit .gtc 0, .newOrder 1 2 .buy 99 3 .limit .gtc 0])
    (p := fun v => (∀ n ∈ v.1.book.nodes, n.price ≠ 0) ∧
      (v.1.apply (.exact true) .snapshot).map Prod.snd = .ok
        [.snapshotLevel .buy 99 3 1, .snapshotLevel .sell 101 5 1, .snapshotLevel .sell 102 6 2,
         .snapshotAccount 1 2 802, .snapshotAccount 2 2 612, .snapshotSummary (some (99, 3)) (some (101, 5)) none 3 2])
    (by decide +kernel)
  obtain ⟨levels, accounts, hd, -⟩ := snapshot_double_entry true (by decide) hrun hz
  exact ⟨e, evss, levels, accounts, hrun, hd, hevs⟩

end MatchingEngine
