import MatchingEngine.Core.Engine
import MatchingEngine.Lib.Traced

/-!
# Snapshots, event by event

`Book::snapshot` hands its events to a closure one by one, so those that come before a panic have
gone out. Here the events are the points it passes, and stay where it panics.

* `snapshotEmitted_collect`: with its events collected it is `snapshot`.
-/

namespace MatchingEngine

/-- What hands out its events one by one. -/
abbrev Emitting := Traced Event Panic

namespace Book

open Traced

/-- The level section for one side, with the levels counted. -/
def levelsEmitted (P : Profile) (b : Book) (side : Side) :
    List (ℕ × Level) → List ℕ → ℕ → Emitting (List ℕ × ℕ)
  | [], order, levelCount => pure (order, levelCount)
  | (price, level) :: levels, order, levelCount => do
    point (.snapshotLevel side price level.totalQty level.count)
    let slots ← b.walkLevel P side price level
    let order ← accountsSeen b.arena slots order
    levelsEmitted P b side levels order (levelCount + 1)

/-- The account section. -/
def accountsEmitted (b : Book) : List ℕ → Emitting Unit
  | [] => pure ()
  | accountId :: order => do
    let entry ← expect "account discovered via a resting order must have an AccountEntry"
      (b.accounts.lookup accountId)
    point (.snapshotAccount accountId entry.openOrderCount entry.notional)
    accountsEmitted b order

/-- `snapshot`. -/
def snapshotEmitted (P : Profile) (b : Book) : Emitting Unit := do
  let (order, levelCount) ← b.levelsEmitted P .buy b.bids.toList [] 0
  let (order, levelCount) ← b.levelsEmitted P .sell b.asks.toList order levelCount
  b.accountsEmitted order
  let (bestBid, bestAsk) := b.topOfBook
  point (.snapshotSummary bestBid bestAsk b.lastTrade levelCount order.length)

/-- The level section, with its events collected. -/
theorem levelsEmitted_collect (P : Profile) (b : Book) (side : Side) (levels : List (ℕ × Level)) :
    ∀ (order : List ℕ) (n : ℕ), (b.levelsEmitted P side levels order n).collect =
      (b.snapshotLevels P side levels order).map (fun r => ((r.1, n + r.2.length), r.2)) := by
  induction levels with
  | nil => exact fun order n => rfl
  | cons e levels ih =>
    obtain ⟨price, level⟩ := e
    intro order n
    unfold levelsEmitted snapshotLevels
    rw [collect_point_bind]
    cases hw : b.walkLevel P side price level with
    | error p => rfl
    | ok slots =>
      rw [lift_ok_bind rfl, bind_of_ok rfl]
      cases hs : accountsSeen b.arena slots order with
      | error p => rfl
      | ok order' =>
        rw [lift_ok_bind rfl, bind_of_ok rfl, ih]
        cases b.snapshotLevels P side levels order' with
        | error p => rfl
        | ok r =>
          simp only [Except.map, bind, Except.bind, pure, Except.pure, List.length_cons]
          rw [Nat.add_assoc, Nat.add_comm 1]

/-- The account section, with its events collected. -/
theorem accountsEmitted_collect (b : Book) (order : List ℕ) :
    (b.accountsEmitted order).collect = (b.snapshotAccounts order).map (fun evs => ((), evs)) := by
  induction order with
  | nil => rfl
  | cons accountId order ih =>
    unfold accountsEmitted snapshotAccounts
    cases he : expect "account discovered via a resting order must have an AccountEntry"
      (b.accounts.lookup accountId) with
    | error p => rfl
    | ok entry =>
      rw [lift_ok_bind rfl, bind_of_ok rfl, collect_point_bind, ih]
      cases b.snapshotAccounts order with
      | error p => rfl
      | ok evs => rfl

/-- **With its events collected it is `snapshot`.** -/
theorem snapshotEmitted_collect (P : Profile) (b : Book) :
    (b.snapshotEmitted P).collect = (b.snapshot P).map (fun evs => ((), evs)) := by
  unfold snapshotEmitted snapshot
  rw [collect_bind, levelsEmitted_collect]
  cases b.snapshotLevels P .buy b.bids.toList [] with
  | error p => rfl
  | ok bids =>
    obtain ⟨order, bidEvs⟩ := bids
    rw [show Except.map (fun r => ((r.1, 0 + r.2.length), r.2)) (Except.ok (order, bidEvs)) =
      (.ok ((order, 0 + bidEvs.length), bidEvs) : Except Panic _) from rfl, bind_of_ok rfl, bind_of_ok rfl]
    dsimp only
    rw [collect_bind, levelsEmitted_collect]
    cases b.snapshotLevels P .sell b.asks.toList order with
    | error p => rfl
    | ok asks =>
      obtain ⟨order, askEvs⟩ := asks
      rw [show Except.map (fun r => ((r.1, 0 + bidEvs.length + r.2.length), r.2)) (Except.ok (order, askEvs)) =
        (.ok ((order, 0 + bidEvs.length + askEvs.length), askEvs) : Except Panic _) from rfl, bind_of_ok rfl, bind_of_ok rfl]
      dsimp only
      rw [collect_bind, accountsEmitted_collect]
      cases b.snapshotAccounts order with
      | error p => rfl
      | ok evs =>
        simp [collect, point, Except.map, bind, Except.bind, pure, Except.pure]

end Book

end MatchingEngine
