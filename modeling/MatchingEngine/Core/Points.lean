import MatchingEngine.Core.Ledger
import MatchingEngine.Lib.Traced

/-!
# The points a book passes

The operations of the book once more, as code that leaves a trace: after every
assignment to the arena its value is put on record, and after every call of `rest`,
`unlink`, `reduce_resting_qty`, the amend in place and every whole operation the book.
Nothing else in `core::book` writes to the arena.

* `Op.applyTraced_result`, `walk_stepTraced_result`: without the record it is the same code.
-/

namespace MatchingEngine

/-- Where a book is looked at: with a call under way, its arena; between two calls, all of it. -/
inductive Point
  | within (arena : Arena)
  | between (book : Book)

/-- The arena, wherever the point lies. -/
def Point.arena : Point → Arena
  | .within arena => arena
  | .between book => book.arena

/-- A function with the points it passes. -/
abbrev Watched := Traced Point Panic

open Traced (point result_bind result_point result_ite)

namespace Book

/-- `rest`, with its points. -/
def restTraced (P : Profile) (b : Book) (accountId orderId : ℕ) (side : Side) (price qty : ℕ) : Watched Book := do
  let entry := (b.accounts.lookup accountId).getD .default
  let accounts := b.accounts.insert accountId entry
  let acctIdx := entry.slots.length
  let (arena, slot) ← b.arena.insert
    { id := orderId, account := accountId, price, qty, side, prev := none, next := none, acctIdx }
  point (.within arena)
  let entry ← expect "just touched via entry().or_default() above" (accounts.lookup accountId)
  let notional ← P.store128 ((entry.notional : ℤ) + (price * qty : ℕ))
  let accounts := accounts.insert accountId { slots := entry.slots ++ [slot], notional }
  let orderIndex := b.orderIndex.insert (accountId, orderId) slot
  let level := (b.map side)[price]?.getD .default
  let oldTail := level.tail
  let totalQty ← P.store64 ((level.totalQty : ℤ) + qty)
  let level : Level :=
    { head := if oldTail = none then some slot else level.head, tail := some slot, totalQty,
      count := level.count + 1 }
  let arena ← arena.updateLink oldTail "old tail must be live" (fun n => { n with next := some slot })
  point (.within arena)
  let arena ← if oldTail = none then pure arena
    else arena.update slot "just inserted" (fun n => { n with prev := oldTail })
  point (.within arena)
  let b := { b with arena, accounts, orderIndex }.setMap side ((b.map side).insert price level)
  point (.between b)
  pure b

/-- `unlink`, in the same way. -/
def unlinkTraced (P : Profile) (b : Book) (slot : ℕ) : Watched Book := do
  let node ← expect "unlink called on a live slot" (b.arena.get slot)
  let arena ← b.arena.updateLink node.prev "prev must be live" (fun n => { n with next := node.next })
  point (.within arena)
  let arena ← arena.updateLink node.next "next must be live" (fun n => { n with prev := node.prev })
  point (.within arena)
  let level ← expect "level must exist for a resting node's price" (b.map node.side)[node.price]?
  let totalQty ← P.store64 ((level.totalQty : ℤ) - node.qty)
  let level : Level :=
    { head := if level.head = some slot then node.next else level.head,
      tail := if level.tail = some slot then node.prev else level.tail,
      totalQty, count := level.count - 1 }
  let m := if level.isEmpty then (b.map node.side).erase node.price
    else (b.map node.side).insert node.price level
  let orderIndex := b.orderIndex.erase (node.account, node.id)
  let entry ← expect "node's account must have an entry" (b.accounts.lookup node.account)
  let removed ← index entry.slots node.acctIdx
  let slots := swapRemove entry.slots node.acctIdx
  P.debugAssert (removed = slot) "acct_idx did not point back to the slot being unlinked"
  let notional ← P.store128 ((entry.notional : ℤ) - (node.price * node.qty : ℕ))
  let arena ← arena.updateLink slots[node.acctIdx]? "moved slot must be live"
    (fun n => { n with acctIdx := node.acctIdx })
  point (.within arena)
  let arena ← arena.freeSlot P slot
  point (.within arena)
  let accounts := b.accounts.insert node.account { slots, notional }
  let b := { b with arena, accounts, orderIndex }.setMap node.side m
  point (.between b)
  pure b

def reduceRestingQtyTraced (P : Profile) (b : Book) (slot : ℕ) (side : Side) (price fillQty : ℕ) :
    Watched Book := do
  let node ← expect "reduce called on a live slot" (b.arena.get slot)
  let arena ← b.arena.update slot "reduce called on a live slot" (fun n => { n with qty := n.qty - fillQty })
  point (.within arena)
  let level ← expect "level must exist" (b.map side)[price]?
  let totalQty ← P.store64 ((level.totalQty : ℤ) - fillQty)
  let entry ← expect "node's account must have an entry" (b.accounts.lookup node.account)
  let notional ← P.store128 ((entry.notional : ℤ) - (price * fillQty : ℕ))
  let accounts := b.accounts.insert node.account { entry with notional }
  let b := { b with arena, accounts }.setMap side ((b.map side).insert price { level with totalQty })
  point (.between b)
  pure b

def amendInPlaceTraced (P : Profile) (b : Book) (slot : ℕ) (node : Node) (newQty : ℕ) : Watched Book := do
  let oldQty := node.qty
  let arena ← b.arena.update slot "just read above" (fun n => { n with qty := newQty })
  point (.within arena)
  let level ← expect "resting node's level must exist" (b.map node.side)[node.price]?
  let totalQty ← P.store64 ((level.totalQty : ℤ) - oldQty)
  let totalQty ← P.store64 ((totalQty : ℤ) + newQty)
  let entry ← expect "resting node's account must have an entry" (b.accounts.lookup node.account)
  let notional ← P.store128 ((entry.notional : ℤ) - (node.price * oldQty : ℕ))
  let notional ← P.store128 ((notional : ℤ) + (node.price * newQty : ℕ))
  let accounts := b.accounts.insert node.account { entry with notional }
  let b := { b with arena, accounts }.setMap node.side
    ((b.map node.side).insert node.price { level with totalQty })
  point (.between b)
  pure b

/-- The loop of `sweep`, with the points of what it calls. -/
def sweepLoopTraced (P : Profile) (accountId orderId : ℕ) (side : Side) (price : ℕ) :
    ℕ → Option ℕ → Book → ℕ → Watched (Book × ℕ × List Event)
  | 0, _, _, _ => Traced.lift (.error .diverges)
  | fuel + 1, none, b, remaining =>
    if remaining > 0 then
      match b.crossingPrice side price with
      | none => pure (b, remaining, [])
      | some levelPrice => sweepLoopTraced P accountId orderId side price fuel (some levelPrice) b remaining
    else pure (b, remaining, [])
  | fuel + 1, some levelPrice, b, remaining =>
    if remaining = 0 then pure (b, remaining, [])
    else match b.levelHead side.opposite levelPrice with
      | none => sweepLoopTraced P accountId orderId side price fuel none b remaining
      | some makerSlot => do
        let maker ← expect "level head must be live" (b.arena.get makerSlot)
        if maker.account = accountId then
          let b ← b.unlinkTraced P makerSlot
          let (b, remaining, evs) ← sweepLoopTraced P accountId orderId side price fuel (some levelPrice) b remaining
          pure (b, remaining, .cancelled maker.account maker.id :: evs)
        else
          let fillQty := min remaining maker.qty
          let remaining := remaining - fillQty
          let fillPrice := maker.price
          let b := { b with lastTrade := some fillPrice }
          let makerRestingQty := maker.qty - fillQty
          let fills :=
            [.filled accountId orderId side fillPrice fillQty remaining (fillState remaining),
             .filled maker.account maker.id side.opposite fillPrice fillQty makerRestingQty
               (fillState makerRestingQty),
             .trade fillPrice fillQty side]
          let b ← if fillQty = maker.qty then b.unlinkTraced P makerSlot
            else b.reduceRestingQtyTraced P makerSlot side.opposite levelPrice fillQty
          let (b, remaining, evs) ← sweepLoopTraced P accountId orderId side price fuel (some levelPrice) b remaining
          pure (b, remaining, fills ++ evs)

/-- `sweep`, with the points of its loops. -/
def sweepTraced (P : Profile) (b : Book) (accountId orderId : ℕ) (side : Side) (price qty : ℕ) :
    Watched (Book × ℕ × List Event) :=
  sweepLoopTraced P accountId orderId side price (3 * b.arena.slots.length + 3) none b qty

/-- The loop of `stp_clear_crossing_self_orders`: a point after every cancel. -/
def stpClearLoopTraced (P : Profile) (accountId : ℕ) (side : Side) (price : ℕ) :
    ℕ → Book → Watched (Bool × Book × List Event)
  | 0, _ => Traced.lift (.error .diverges)
  | fuel + 1, b =>
    match b.crossingPrice side price with
    | none => pure (false, b, [])
    | some levelPrice =>
      match b.levelHead side.opposite levelPrice with
      | none => stpClearLoopTraced P accountId side price fuel b
      | some headSlot => do
        let node ← expect "level head must be live" (b.arena.get headSlot)
        if node.account = accountId then
          let b ← b.unlinkTraced P headSlot
          let (crosses, b, evs) ← stpClearLoopTraced P accountId side price fuel b
          pure (crosses, b, .cancelled node.account node.id :: evs)
        else pure (true, b, [])

def stpClearCrossingSelfOrdersTraced (P : Profile) (b : Book) (accountId : ℕ) (side : Side) (price : ℕ) :
    Watched (Bool × Book × List Event) :=
  stpClearLoopTraced P accountId side price (b.arena.slots.length + 1) b

def unlessDuplicateTraced (b : Book) (accountId orderId : ℕ) (body : Watched (Book × List Event)) :
    Watched (Book × List Event) :=
  if (b.orderIndex.lookup (accountId, orderId)).isSome then
    pure (b, [.rejected accountId orderId .duplicateOrderId])
  else body

/-- `submit_gtc`, with the points of what it calls; and so for the operations below. -/
def submitGtcTraced (P : Profile) (b : Book) (accountId orderId : ℕ) (side : Side)
    (price qty : ℕ) : Watched (Book × List Event) := do
  P.debugAssert (qty ≠ 0) "qty is validated nonzero at the gateway"
  P.debugAssert (price ≠ 0) "price is validated nonzero for non-Market orders at the gateway"
  b.unlessDuplicateTraced accountId orderId do
    let (b, remaining, evs) ← b.sweepTraced P accountId orderId side price qty
    let b ← if remaining > 0 then b.restTraced P accountId orderId side price remaining else pure b
    pure (b, evs ++ [.accepted accountId orderId remaining])

def submitIocTraced (P : Profile) (b : Book) (accountId orderId : ℕ) (side : Side)
    (price qty : ℕ) : Watched (Book × List Event) := do
  P.debugAssert (qty ≠ 0) "qty is validated nonzero at the gateway"
  P.debugAssert (price ≠ 0) "price is validated nonzero for non-Market orders at the gateway"
  b.unlessDuplicateTraced accountId orderId do
    let (b, _, evs) ← b.sweepTraced P accountId orderId side price qty
    pure (b, evs ++ [.accepted accountId orderId 0])

def submitFokTraced (P : Profile) (b : Book) (accountId orderId : ℕ) (side : Side)
    (price qty : ℕ) : Watched (Book × List Event) := do
  P.debugAssert (qty ≠ 0) "qty is validated nonzero at the gateway"
  P.debugAssert (price ≠ 0) "price is validated nonzero for non-Market orders at the gateway"
  b.unlessDuplicateTraced accountId orderId do
    let fillable ← b.isFillable accountId side price qty
    if fillable then
      let (b, remaining, evs) ← b.sweepTraced P accountId orderId side price qty
      P.debugAssert (remaining = 0) "is_fillable passed, so sweep must have driven remaining to zero"
      pure (b, evs ++ [.accepted accountId orderId 0])
    else pure (b, [.rejected accountId orderId .notFullyFillable])

def submitMarketTraced (P : Profile) (b : Book) (accountId orderId : ℕ) (side : Side)
    (qty : ℕ) : Watched (Book × List Event) := do
  P.debugAssert (qty ≠ 0) "qty is validated nonzero at the gateway"
  b.unlessDuplicateTraced accountId orderId do
    let (b, _, evs) ← b.sweepTraced P accountId orderId side (marketBound side) qty
    pure (b, evs ++ [.accepted accountId orderId 0])

def submitPostonlyTraced (P : Profile) (b : Book) (accountId orderId : ℕ) (side : Side)
    (price qty : ℕ) : Watched (Book × List Event) := do
  P.debugAssert (qty ≠ 0) "qty is validated nonzero at the gateway"
  P.debugAssert (price ≠ 0) "price is validated nonzero at the gateway"
  b.unlessDuplicateTraced accountId orderId do
    let (crosses, b, evs) ← b.stpClearCrossingSelfOrdersTraced P accountId side price
    if crosses then pure (b, evs ++ [.rejected accountId orderId .wouldCross])
    else
      let b ← b.restTraced P accountId orderId side price qty
      pure (b, evs ++ [.accepted accountId orderId qty])

def modifyTraced (P : Profile) (b : Book) (accountId orderId newPrice newQty : ℕ) : Watched (Book × List Event) :=
  if newQty = 0 then pure (b, [.rejected accountId orderId .zeroQuantity])
  else match b.orderIndex.lookup (accountId, orderId) with
    | none => pure (b, [.rejected accountId orderId .unknownOrderId])
    | some slot => do
      let node ← expect "order index points to a live slot" (b.arena.get slot)
      let priceChanged := newPrice ≠ node.price
      let qtyIncreased := newQty > node.qty
      if ¬ priceChanged ∧ ¬ qtyIncreased then
        let b ← b.amendInPlaceTraced P slot node newQty
        pure (b, [.replaced accountId orderId newQty true])
      else
        let b ← b.unlinkTraced P slot
        let (b, remaining, evs) ← b.sweepTraced P accountId orderId node.side newPrice newQty
        let b ← if remaining > 0 then b.restTraced P accountId orderId node.side newPrice remaining else pure b
        pure (b, .replaced accountId orderId newQty false :: evs)

def cancelTraced (P : Profile) (b : Book) (accountId orderId : ℕ) : Watched (Book × List Event) :=
  match b.orderIndex.lookup (accountId, orderId) with
  | some slot => do
    let b ← b.unlinkTraced P slot
    pure (b, [.cancelled accountId orderId])
  | none => pure (b, [.rejected accountId orderId .unknownOrderId])

/-- The loop of `mass_cancel`: a point after every order. -/
def massCancelLoopTraced (P : Profile) (accountId : ℕ) : List ℕ → Book → Watched (Book × List Event)
  | [], b => pure (b, [])
  | slot :: slots, b => do
    let node ← expect "snapshot slot must still be live" (b.arena.get slot)
    let orderId := node.id
    let b ← b.unlinkTraced P slot
    let (b, evs) ← massCancelLoopTraced P accountId slots b
    pure (b, .cancelled accountId orderId :: evs)

def massCancelTraced (P : Profile) (b : Book) (accountId : ℕ) : Watched (Book × List Event) :=
  match b.accounts.lookup accountId with
  | none => pure (b, [])
  | some entry => massCancelLoopTraced P accountId entry.slots { b with massCancelScratch := entry.slots }

end Book

namespace Op

/-- An operation with its points. -/
def applyTraced (P : Profile) (b : Book) : Op → Watched (Book × List Event)
  | .gtc account order side price qty => b.submitGtcTraced P account order side price qty
  | .ioc account order side price qty => b.submitIocTraced P account order side price qty
  | .fok account order side price qty => b.submitFokTraced P account order side price qty
  | .postOnly account order side price qty => b.submitPostonlyTraced P account order side price qty
  | .market account order side qty => b.submitMarketTraced P account order side qty
  | .cancel account order => b.cancelTraced P account order
  | .modify account order price qty => b.modifyTraced P account order price qty
  | .massCancel account => b.massCancelTraced P account

/-- An operation, and the book it leaves. -/
def stepTraced (P : Profile) (b : Book) (op : Op) : Watched (Book × List Event) := do
  let r ← op.applyTraced P b
  point (.between r.1)
  pure r

end Op

/-- The points a new book passes under a list of operations, itself first. A panic ends it. -/
def pointsOf (P : Profile) (ops : List Op) : List Point :=
  .between .new :: (Traced.walk (Op.stepTraced P) .new ops).points

/-! ### The same code -/

namespace Book

variable {P : Profile} {b : Book} {a i : ℕ} {s : Side} {p q : ℕ}

/-- Without its points it is `rest`; and so for the functions below. -/
theorem restTraced_result : (b.restTraced P a i s p q).result = b.rest P a i s p q := by
  refine result_bind rfl fun ⟨arena, slot⟩ => result_point ?_
  refine result_bind rfl fun entry => result_bind rfl fun notional => result_bind rfl fun totalQty => ?_
  refine result_bind rfl fun arena => result_point ?_
  refine result_ite ?_ ?_
  · exact result_bind rfl fun arena => result_point (result_point rfl)
  · exact result_bind rfl fun arena => result_point (result_point rfl)

theorem unlinkTraced_result (slot : ℕ) : (b.unlinkTraced P slot).result = b.unlink P slot := by
  refine result_bind rfl fun node => ?_
  refine result_bind rfl fun arena => result_point (result_bind rfl fun arena => result_point ?_)
  refine result_bind rfl fun level => result_bind rfl fun totalQty => result_bind rfl fun entry => ?_
  refine result_bind rfl fun removed => result_bind rfl fun _ => result_bind rfl fun notional => ?_
  refine result_bind rfl fun arena => result_point ?_
  exact result_bind rfl fun arena => result_point (result_point rfl)

theorem reduceRestingQtyTraced_result (slot : ℕ) :
    (b.reduceRestingQtyTraced P slot s p q).result = b.reduceRestingQty P slot s p q := by
  refine result_bind rfl fun node => result_bind rfl fun arena => result_point ?_
  refine result_bind rfl fun level => result_bind rfl fun totalQty => ?_
  exact result_bind rfl fun entry => result_bind rfl fun notional => result_point rfl

theorem amendInPlaceTraced_result (slot : ℕ) (node : Node) :
    (b.amendInPlaceTraced P slot node q).result = b.amendInPlace P slot node q := by
  refine result_bind rfl fun arena => result_point ?_
  refine result_bind rfl fun level => result_bind rfl fun totalQty => result_bind rfl fun totalQty => ?_
  exact result_bind rfl fun entry => result_bind rfl fun notional => result_bind rfl fun notional => result_point rfl

/-- By induction on the fuel, with the loops' own case split. -/
theorem sweepLoopTraced_result (fuel : ℕ) : ∀ (lp : Option ℕ) (b : Book) (q : ℕ),
    (sweepLoopTraced P a i s p fuel lp b q).result = sweepLoop P a i s p fuel lp b q := by
  induction fuel with
  | zero => exact fun lp b q => rfl
  | succ fuel ih =>
    intro lp b q
    cases lp with
    | none =>
      rw [sweepLoopTraced, sweepLoop]
      refine result_ite ?_ rfl
      cases b.crossingPrice s p with
      | none => rfl
      | some lp => exact ih _ _ _
    | some lp =>
      rw [sweepLoopTraced, sweepLoop]
      refine result_ite rfl ?_
      cases b.levelHead s.opposite lp with
      | none => exact ih _ _ _
      | some x =>
        refine result_bind rfl fun maker => result_ite ?_ ?_
        · exact result_bind (unlinkTraced_result x) fun b => result_bind (ih _ _ _) fun r => rfl
        · dsimp only
          refine result_ite ?_ ?_
          · exact result_bind (unlinkTraced_result x) fun b => result_bind (ih _ _ _) fun r => rfl
          · exact result_bind (reduceRestingQtyTraced_result x) fun b => result_bind (ih _ _ _) fun r => rfl

theorem sweepTraced_result : (b.sweepTraced P a i s p q).result = b.sweep P a i s p q :=
  sweepLoopTraced_result _ _ _ _

theorem stpClearLoopTraced_result (fuel : ℕ) : ∀ b : Book,
    (stpClearLoopTraced P a s p fuel b).result = stpClearLoop P a s p fuel b := by
  induction fuel with
  | zero => exact fun b => rfl
  | succ fuel ih =>
    intro b
    rw [stpClearLoopTraced, stpClearLoop]
    cases b.crossingPrice s p with
    | none => rfl
    | some lp =>
      dsimp only
      cases b.levelHead s.opposite lp with
      | none => exact ih _
      | some x =>
        refine result_bind rfl fun node => result_ite ?_ rfl
        exact result_bind (unlinkTraced_result x) fun b => result_bind (ih _) fun r => rfl

theorem unlessDuplicateTraced_result {body : Watched (Book × List Event)} {body' : Except Panic (Book × List Event)}
    (h : body.result = body') : (b.unlessDuplicateTraced a i body).result = b.unlessDuplicate a i body' :=
  result_ite rfl h

theorem submitGtcTraced_result : (b.submitGtcTraced P a i s p q).result = b.submitGtc P a i s p q := by
  refine result_bind rfl fun _ => result_bind rfl fun _ => unlessDuplicateTraced_result ?_
  refine result_bind sweepTraced_result fun ⟨b, remaining, evs⟩ => result_ite ?_ rfl
  exact result_bind restTraced_result fun b => rfl

theorem submitIocTraced_result : (b.submitIocTraced P a i s p q).result = b.submitIoc P a i s p q := by
  refine result_bind rfl fun _ => result_bind rfl fun _ => unlessDuplicateTraced_result ?_
  exact result_bind sweepTraced_result fun r => rfl

theorem submitFokTraced_result : (b.submitFokTraced P a i s p q).result = b.submitFok P a i s p q := by
  refine result_bind rfl fun _ => result_bind rfl fun _ => unlessDuplicateTraced_result ?_
  refine result_bind rfl fun fillable => result_ite ?_ rfl
  refine result_bind sweepTraced_result fun ⟨b, remaining, evs⟩ => ?_
  exact result_bind rfl fun _ => rfl

theorem submitMarketTraced_result : (b.submitMarketTraced P a i s q).result = b.submitMarket P a i s q := by
  refine result_bind rfl fun _ => unlessDuplicateTraced_result ?_
  exact result_bind sweepTraced_result fun r => rfl

theorem submitPostonlyTraced_result : (b.submitPostonlyTraced P a i s p q).result = b.submitPostonly P a i s p q := by
  refine result_bind rfl fun _ => result_bind rfl fun _ => unlessDuplicateTraced_result ?_
  refine result_bind (stpClearLoopTraced_result _ b) fun ⟨crosses, b, evs⟩ => result_ite rfl ?_
  exact result_bind restTraced_result fun b => rfl

theorem modifyTraced_result : (b.modifyTraced P a i p q).result = b.modify P a i p q := by
  refine result_ite rfl ?_
  cases b.orderIndex.lookup (a, i) with
  | none => rfl
  | some slot =>
    refine result_bind rfl fun node => result_ite ?_ ?_
    · exact result_bind (amendInPlaceTraced_result slot node) fun b => rfl
    · refine result_bind (unlinkTraced_result slot) fun b => ?_
      refine result_bind sweepTraced_result fun ⟨b, remaining, evs⟩ => result_ite ?_ rfl
      exact result_bind restTraced_result fun b => rfl

theorem cancelTraced_result : (b.cancelTraced P a i).result = b.cancel P a i := by
  unfold cancelTraced cancel
  cases b.orderIndex.lookup (a, i) with
  | none => rfl
  | some slot => exact result_bind (unlinkTraced_result slot) fun b => rfl

/-- By induction on the slots to go through. -/
theorem massCancelLoopTraced_result (slots : List ℕ) : ∀ b : Book,
    (massCancelLoopTraced P a slots b).result = massCancelLoop P a slots b := by
  induction slots with
  | nil => exact fun b => rfl
  | cons slot slots ih =>
    intro b
    refine result_bind rfl fun node => result_bind (unlinkTraced_result slot) fun b => ?_
    exact result_bind (ih b) fun r => rfl

theorem massCancelTraced_result : (b.massCancelTraced P a).result = b.massCancel P a := by
  unfold massCancelTraced massCancel
  cases b.accounts.lookup a with
  | none => rfl
  | some entry => exact massCancelLoopTraced_result entry.slots _

end Book

namespace Op

/-- Without its points it is the operation. -/
theorem applyTraced_result (P : Profile) (b : Book) (op : Op) : (op.applyTraced P b).result = op.apply P b := by
  cases op with
  | gtc => exact Book.submitGtcTraced_result
  | ioc => exact Book.submitIocTraced_result
  | fok => exact Book.submitFokTraced_result
  | postOnly => exact Book.submitPostonlyTraced_result
  | market => exact Book.submitMarketTraced_result
  | cancel => exact Book.cancelTraced_result
  | modify => exact Book.modifyTraced_result
  | massCancel => exact Book.massCancelTraced_result

theorem stepTraced_result (P : Profile) (b : Book) (op : Op) : (op.stepTraced P b).result = op.apply P b := by
  unfold stepTraced
  rw [← applyTraced_result]
  cases hr : (op.applyTraced P b).result with
  | error e => rw [Traced.bind_of_result_error hr]
  | ok r => rw [Traced.bind_of_result_ok hr]; rfl

end Op

/-- **The run on record is the run.** -/
theorem walk_stepTraced_result (P : Profile) (b : Book) (ops : List Op) :
    (Traced.walk (Op.stepTraced P) b ops).result = run (Op.apply P) b ops :=
  Traced.walk_result (Op.stepTraced_result P) b ops

end MatchingEngine
