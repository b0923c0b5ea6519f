import MatchingEngine.Core.Arena
import MatchingEngine.Lib.Dense
import Mathlib.Data.Finmap
import Std.Data.ExtTreeMap

/-!
# The order book

The code of `core::book`, with `core::level` and `core::account`: two price maps,
the arena, the order index, the per-account slot arrays. A `BTreeMap` is an
`ExtTreeMap`, a `HashMap` a `Finmap` (no iteration order). What a function emits is
the list of events it returns; a panic ends it with an error.

Loops without a bound of their own (`sweep`, `stp_clear_crossing_self_orders`, the
chain walks) take fuel and report `Panic.diverges` when it runs out.
-/

namespace MatchingEngine

/-- `assert!`. -/
def check (cond : Prop) [Decidable cond] (msg : String) : Except Panic Unit :=
  if cond then .ok () else .error (.assertion msg)

/-- `v[i]`. -/
def index {α : Type*} (l : List α) (i : ℕ) : Except Panic α :=
  match l[i]? with
  | some a => .ok a
  | none => .error .indexOutOfRange

/-- A price level: the ends of its list of nodes, and what is cached about it. -/
structure Level where
  head : Option ℕ
  tail : Option ℕ
  totalQty : ℕ
  count : ℕ
  deriving DecidableEq, Repr

/-- `Level::default`: an empty level. -/
def Level.default : Level := ⟨none, none, 0, 0⟩

def Level.isEmpty (l : Level) : Bool := l.count == 0

/-- What is kept for an account: its orders' slots, and their notional. -/
structure AccountEntry where
  slots : List ℕ
  notional : ℕ
  deriving DecidableEq, Repr

def AccountEntry.default : AccountEntry := ⟨[], 0⟩

def AccountEntry.openOrderCount (e : AccountEntry) : ℕ := e.slots.length

/-- `BTreeMap<ℕ, Level>`. -/
abbrev PriceMap := Std.ExtTreeMap ℕ Level

/-- `Book`: levels by price on each side, the nodes, and the indices into them. -/
structure Book where
  bids : PriceMap
  asks : PriceMap
  arena : Arena
  orderIndex : Finmap (fun _ : Key => ℕ)
  accounts : Finmap (fun _ : ℕ => AccountEntry)
  lastTrade : Option ℕ
  massCancelScratch : List ℕ

/-- The state a fill reports. -/
def fillState (restingQty : ℕ) : FillState := if restingQty = 0 then .filled else .partiallyFilled

namespace Book

/-- The empty book. -/
def new : Book := ⟨∅, ∅, .new, ∅, ∅, none, []⟩

/-- `match side { Buy => &self.bids, Sell => &self.asks }`. -/
def map (b : Book) : Side → PriceMap
  | .buy => b.bids
  | .sell => b.asks

/-- The book with one side's levels replaced. -/
def setMap (b : Book) (side : Side) (m : PriceMap) : Book :=
  match side with
  | .buy => { b with bids := m }
  | .sell => { b with asks := m }

/-- The highest price bid. -/
def bestBid (b : Book) : Option ℕ := b.bids.keys.getLast?

/-- The lowest price asked. -/
def bestAsk (b : Book) : Option ℕ := b.asks.keys.head?

/-- Best price and quantity of each side. -/
def topOfBook (b : Book) : TouchSide × TouchSide :=
  (b.bids.toList.getLast?.map (fun e => (e.1, e.2.totalQty)),
   b.asks.toList.head?.map (fun e => (e.1, e.2.totalQty)))

/-- How many orders of the account rest. -/
def accountOpenOrderCount (b : Book) (accountId : ℕ) : ℕ :=
  ((b.accounts.lookup accountId).map AccountEntry.openOrderCount).getD 0

/-- The cached notional of the account. -/
def accountNotional (b : Book) (accountId : ℕ) : ℕ :=
  ((b.accounts.lookup accountId).map AccountEntry.notional).getD 0

/-- Price and quantity of a resting order. -/
def restingOrderSnapshot (b : Book) (accountId orderId : ℕ) : Option (ℕ × ℕ) := do
  let slot ← b.orderIndex.lookup (accountId, orderId)
  let node ← b.arena.get slot
  pure (node.price, node.qty)

/-- Insert a new resting node at the back of its level, creating the level and the account's
entry as needed. -/
def rest (P : Profile) (b : Book) (accountId orderId : ℕ) (side : Side) (price qty : ℕ) : Except Panic Book := do
  let entry := (b.accounts.lookup accountId).getD .default
  let accounts := b.accounts.insert accountId entry
  let acctIdx := entry.slots.length
  let (arena, slot) ← b.arena.insert
    { id := orderId, account := accountId, price, qty, side, prev := none, next := none, acctIdx }
  let entry ← expect "just touched via entry().or_default() above" (accounts.lookup accountId)
  let notional ← P.store128 ((entry.notional : ℤ) + (price * qty : ℕ))
  let accounts := accounts.insert accountId { slots := entry.slots ++ [slot], notional }
  let orderIndex := b.orderIndex.insert (accountId, orderId) slot
  let level := (b.map side)[price]?.getD .default
  let oldTail := level.tail
  let totalQty ← P.store64 ((level.totalQty : ℤ) + qty)
  let level : Level :=
    { head := if oldTail = none then some slot else level.head, tail := some slot, totalQty,
      count := level.count + 1 }
  let arena ← arena.updateLink oldTail "old tail must be live" (fun n => { n with next := some slot })
  let arena ← if oldTail = none then .ok arena
    else arena.update slot "just inserted" (fun n => { n with prev := oldTail })
  pure ({ b with arena, accounts, orderIndex }.setMap side ((b.map side).insert price level))

/-- Remove a resting order from its level's chain, the order index, its account's slot array and
the arena. -/
def unlink (P : Profile) (b : Book) (slot : ℕ) : Except Panic Book := do
  let node ← expect "unlink called on a live slot" (b.arena.get slot)
  let arena ← b.arena.updateLink node.prev "prev must be live" (fun n => { n with next := node.next })
  let arena ← arena.updateLink node.next "next must be live" (fun n => { n with prev := node.prev })
  let level ← expect "level must exist for a resting node's price" (b.map node.side)[node.price]?
  let totalQty ← P.store64 ((level.totalQty : ℤ) - node.qty)
  let level : Level :=
    { head := if level.head = some slot then node.next else level.head,
      tail := if level.tail = some slot then node.prev else level.tail,
      totalQty, count := level.count - 1 }
  let m := if level.isEmpty then (b.map node.side).erase node.price
    else (b.map node.side).insert node.price level
  let orderIndex := b.orderIndex.erase (node.account, node.id)
  let entry ← expect "node's account must have an entry" (b.accounts.lookup node.account)
  let removed ← index entry.slots node.acctIdx
  let slots := swapRemove entry.slots node.acctIdx
  P.debugAssert (removed = slot) "acct_idx did not point back to the slot being unlinked"
  let notional ← P.store128 ((entry.notional : ℤ) - (node.price * node.qty : ℕ))
  let arena ← arena.updateLink slots[node.acctIdx]? "moved slot must be live"
    (fun n => { n with acctIdx := node.acctIdx })
  let arena ← arena.freeSlot P slot
  let accounts := b.accounts.insert node.account { slots, notional }
  pure ({ b with arena, accounts, orderIndex }.setMap node.side m)

/-- Reduce a maker's resting quantity after a partial fill. -/
def reduceRestingQty (P : Profile) (b : Book) (slot : ℕ) (side : Side) (price fillQty : ℕ) :
    Except Panic Book := do
  let node ← expect "reduce called on a live slot" (b.arena.get slot)
  let arena ← b.arena.update slot "reduce called on a live slot" (fun n => { n with qty := n.qty - fillQty })
  let level ← expect "level must exist" (b.map side)[price]?
  let totalQty ← P.store64 ((level.totalQty : ℤ) - fillQty)
  let entry ← expect "node's account must have an entry" (b.accounts.lookup node.account)
  let notional ← P.store128 ((entry.notional : ℤ) - (price * fillQty : ℕ))
  let accounts := b.accounts.insert node.account { entry with notional }
  pure ({ b with arena, accounts }.setMap side ((b.map side).insert price { level with totalQty }))

/-- The best opposite price, if it crosses the aggressor's limit. -/
def crossingPrice (b : Book) (side : Side) (price : ℕ) : Option ℕ :=
  match side with
  | .buy => b.asks.keys.head?.filter (fun ask => ask ≤ price)
  | .sell => b.bids.keys.getLast?.filter (fun bid => price ≤ bid)

/-- The head of a level, `none` when the level is gone or its head is null. -/
def levelHead (b : Book) (side : Side) (price : ℕ) : Option ℕ := (b.map side)[price]?.bind Level.head

/-- The loops of `sweep`: `none` at the top of `'levels`, `some p` inside the loop over the level
at `p`. -/
def sweepLoop (P : Profile) (accountId orderId : ℕ) (side : Side) (price : ℕ) :
    ℕ → Option ℕ → Book → ℕ → Except Panic (Book × ℕ × List Event)
  | 0, _, _, _ => .error .diverges
  | fuel + 1, none, b, remaining =>
    if remaining > 0 then
      match b.crossingPrice side price with
      | none => .ok (b, remaining, [])
      | some levelPrice => sweepLoop P accountId orderId side price fuel (some levelPrice) b remaining
    else .ok (b, remaining, [])
  | fuel + 1, some levelPrice, b, remaining =>
    if remaining = 0 then .ok (b, remaining, [])
    else match b.levelHead side.opposite levelPrice with
      -- level fully consumed and removed
      | none => sweepLoop P accountId orderId side price fuel none b remaining
      | some makerSlot => do
        let maker ← expect "level head must be live" (b.arena.get makerSlot)
        if maker.account = accountId then
          -- self-trade prevention: the resting order goes, the aggressor's quantity stays
          let b ← b.unlink P makerSlot
          let (b, remaining, evs) ← sweepLoop P accountId orderId side price fuel (some levelPrice) b remaining
          pure (b, remaining, .cancelled maker.account maker.id :: evs)
        else
          let fillQty := min remaining maker.qty
          let remaining := remaining - fillQty
          let fillPrice := maker.price
          let b := { b with lastTrade := some fillPrice }
          let makerRestingQty := maker.qty - fillQty
          let fills :=
            [.filled accountId orderId side fillPrice fillQty remaining (fillState remaining),
             .filled maker.account maker.id side.opposite fillPrice fillQty makerRestingQty
               (fillState makerRestingQty),
             .trade fillPrice fillQty side]
          let b ← if fillQty = maker.qty then b.unlink P makerSlot
            else b.reduceRestingQty P makerSlot side.opposite levelPrice fillQty
          let (b, remaining, evs) ← sweepLoop P accountId orderId side price fuel (some levelPrice) b remaining
          pure (b, remaining, fills ++ evs)

/-- Sweep the opposite side at price-time priority; returns the quantity left. Each resting order
costs at most three turns of the loops. -/
def sweep (P : Profile) (b : Book) (accountId orderId : ℕ) (side : Side) (price qty : ℕ) :
    Except Panic (Book × ℕ × List Event) :=
  sweepLoop P accountId orderId side price (3 * b.arena.slots.length + 3) none b qty

/-- Walk a chain, subtracting every foreign node from `needed`; `true` as soon as it is zero. -/
def levelForeignQty (arena : Arena) (accountId : ℕ) : ℕ → Option ℕ → ℕ → Except Panic (Bool × ℕ)
  | _, none, needed => .ok (false, needed)
  | 0, some _, _ => .error .diverges
  | fuel + 1, some cursor, needed => do
    let node ← expect "level chain node must be live" (arena.get cursor)
    if node.account ≠ accountId then
      let needed := needed - min needed node.qty
      if needed = 0 then pure (true, needed)
      else levelForeignQty arena accountId fuel node.next needed
    else levelForeignQty arena accountId fuel node.next needed

/-- The `for` loop of `is_fillable` over the levels, best first. -/
def fillableLevels (b : Book) (accountId : ℕ) (side : Side) (price : ℕ) :
    List (ℕ × Level) → ℕ → Except Panic Bool
  | [], needed => .ok (needed = 0)
  | (levelPrice, level) :: levels, needed =>
    let beyond : Bool := match side with
      | .buy => price < levelPrice
      | .sell => levelPrice < price
    if beyond then .ok (needed = 0)
    else do
      let (hit, needed) ← levelForeignQty b.arena accountId (b.arena.slots.length + 1) level.head needed
      if hit then pure true else fillableLevels b accountId side price levels needed

/-- Fillability for FOK, counting foreign crossing depth only. -/
def isFillable (b : Book) (accountId : ℕ) (side : Side) (price qty : ℕ) :
    Except Panic Bool :=
  match side with
  | .buy => fillableLevels b accountId side price b.asks.toList qty
  | .sell => fillableLevels b accountId side price b.bids.toList.reverse qty

/-- The loop of `stp_clear_crossing_self_orders`. -/
def stpClearLoop (P : Profile) (accountId : ℕ) (side : Side) (price : ℕ) :
    ℕ → Book → Except Panic (Bool × Book × List Event)
  | 0, _ => .error .diverges
  | fuel + 1, b =>
    match b.crossingPrice side price with
    | none => .ok (false, b, [])
    | some levelPrice =>
      match b.levelHead side.opposite levelPrice with
      | none => stpClearLoop P accountId side price fuel b
      | some headSlot => do
        let node ← expect "level head must be live" (b.arena.get headSlot)
        if node.account = accountId then
          let b ← b.unlink P headSlot
          let (crosses, b, evs) ← stpClearLoop P accountId side price fuel b
          pure (crosses, b, .cancelled node.account node.id :: evs)
        else pure (true, b, [])

/-- PostOnly's crossing check: cancel own crossing orders, stop at the first foreign one. -/
def stpClearCrossingSelfOrders (P : Profile) (b : Book) (accountId : ℕ) (side : Side) (price : ℕ) :
    Except Panic (Bool × Book × List Event) :=
  stpClearLoop P accountId side price (b.arena.slots.length + 1) b

/-- The duplicate check every submit starts with. -/
def unlessDuplicate (b : Book) (accountId orderId : ℕ)
    (body : Except Panic (Book × List Event)) : Except Panic (Book × List Event) :=
  if (b.orderIndex.lookup (accountId, orderId)).isSome then
    .ok (b, [.rejected accountId orderId .duplicateOrderId])
  else body

/-- `submit_gtc`: match, and rest the remainder. -/
def submitGtc (P : Profile) (b : Book) (accountId orderId : ℕ) (side : Side)
    (price qty : ℕ) : Except Panic (Book × List Event) := do
  P.debugAssert (qty ≠ 0) "qty is validated nonzero at the gateway"
  P.debugAssert (price ≠ 0) "price is validated nonzero for non-Market orders at the gateway"
  b.unlessDuplicate accountId orderId do
    let (b, remaining, evs) ← b.sweep P accountId orderId side price qty
    let b ← if remaining > 0 then b.rest P accountId orderId side price remaining else .ok b
    pure (b, evs ++ [.accepted accountId orderId remaining])

/-- `submit_ioc`: match, and drop the remainder. -/
def submitIoc (P : Profile) (b : Book) (accountId orderId : ℕ) (side : Side)
    (price qty : ℕ) : Except Panic (Book × List Event) := do
  P.debugAssert (qty ≠ 0) "qty is validated nonzero at the gateway"
  P.debugAssert (price ≠ 0) "price is validated nonzero for non-Market orders at the gateway"
  b.unlessDuplicate accountId orderId do
    let (b, _, evs) ← b.sweep P accountId orderId side price qty
    pure (b, evs ++ [.accepted accountId orderId 0])

/-- `submit_fok`: match if all of it can, or reject. -/
def submitFok (P : Profile) (b : Book) (accountId orderId : ℕ) (side : Side)
    (price qty : ℕ) : Except Panic (Book × List Event) := do
  P.debugAssert (qty ≠ 0) "qty is validated nonzero at the gateway"
  P.debugAssert (price ≠ 0) "price is validated nonzero for non-Market orders at the gateway"
  b.unlessDuplicate accountId orderId do
    let fillable ← b.isFillable accountId side price qty
    if fillable then
      let (b, remaining, evs) ← b.sweep P accountId orderId side price qty
      P.debugAssert (remaining = 0) "is_fillable passed, so sweep must have driven remaining to zero"
      pure (b, evs ++ [.accepted accountId orderId 0])
    else pure (b, [.rejected accountId orderId .notFullyFillable])

/-- The unbounded limit of a market order. -/
def marketBound : Side → ℕ
  | .buy => u64Max
  | .sell => 0

/-- `submit_market`: match at any price, and drop the remainder. -/
def submitMarket (P : Profile) (b : Book) (accountId orderId : ℕ) (side : Side)
    (qty : ℕ) : Except Panic (Book × List Event) := do
  P.debugAssert (qty ≠ 0) "qty is validated nonzero at the gateway"
  b.unlessDuplicate accountId orderId do
    let (b, _, evs) ← b.sweep P accountId orderId side (marketBound side) qty
    pure (b, evs ++ [.accepted accountId orderId 0])

/-- `submit_postonly`: rest, or reject if it would trade. -/
def submitPostonly (P : Profile) (b : Book) (accountId orderId : ℕ) (side : Side)
    (price qty : ℕ) : Except Panic (Book × List Event) := do
  P.debugAssert (qty ≠ 0) "qty is validated nonzero at the gateway"
  P.debugAssert (price ≠ 0) "price is validated nonzero at the gateway"
  b.unlessDuplicate accountId orderId do
    let (crosses, b, evs) ← b.stpClearCrossingSelfOrders P accountId side price
    if crosses then pure (b, evs ++ [.rejected accountId orderId .wouldCross])
    else
      let b ← b.rest P accountId orderId side price qty
      pure (b, evs ++ [.accepted accountId orderId qty])

/-- The in-place amend of `modify`: quantity down or unchanged at an unchanged price. -/
def amendInPlace (P : Profile) (b : Book) (slot : ℕ) (node : Node) (newQty : ℕ) : Except Panic Book := do
  let oldQty := node.qty
  let arena ← b.arena.update slot "just read above" (fun n => { n with qty := newQty })
  let level ← expect "resting node's level must exist" (b.map node.side)[node.price]?
  let totalQty ← P.store64 ((level.totalQty : ℤ) - oldQty)
  let totalQty ← P.store64 ((totalQty : ℤ) + newQty)
  let entry ← expect "resting node's account must have an entry" (b.accounts.lookup node.account)
  let notional ← P.store128 ((entry.notional : ℤ) - (node.price * oldQty : ℕ))
  let notional ← P.store128 ((notional : ℤ) + (node.price * newQty : ℕ))
  let accounts := b.accounts.insert node.account { entry with notional }
  pure ({ b with arena, accounts }.setMap node.side
    ((b.map node.side).insert node.price { level with totalQty }))

def modify (P : Profile) (b : Book) (accountId orderId newPrice newQty : ℕ) : Except Panic (Book × List Event) :=
  if newQty = 0 then .ok (b, [.rejected accountId orderId .zeroQuantity])
  else match b.orderIndex.lookup (accountId, orderId) with
    | none => .ok (b, [.rejected accountId orderId .unknownOrderId])
    | some slot => do
      let node ← expect "order index points to a live slot" (b.arena.get slot)
      let priceChanged := newPrice ≠ node.price
      let qtyIncreased := newQty > node.qty
      if ¬ priceChanged ∧ ¬ qtyIncreased then
        let b ← b.amendInPlace P slot node newQty
        pure (b, [.replaced accountId orderId newQty true])
      else
        let b ← b.unlink P slot
        let (b, remaining, evs) ← b.sweep P accountId orderId node.side newPrice newQty
        let b ← if remaining > 0 then b.rest P accountId orderId node.side newPrice remaining else .ok b
        pure (b, .replaced accountId orderId newQty false :: evs)

/-- `cancel`: take the order out, if it is there. -/
def cancel (P : Profile) (b : Book) (accountId orderId : ℕ) :
    Except Panic (Book × List Event) :=
  match b.orderIndex.lookup (accountId, orderId) with
  | some slot => do
    let b ← b.unlink P slot
    pure (b, [.cancelled accountId orderId])
  | none => .ok (b, [.rejected accountId orderId .unknownOrderId])

/-- The loop of `mass_cancel` over the snapshot of the account's slot array. -/
def massCancelLoop (P : Profile) (accountId : ℕ) : List ℕ → Book → Except Panic (Book × List Event)
  | [], b => .ok (b, [])
  | slot :: slots, b => do
    let node ← expect "snapshot slot must still be live" (b.arena.get slot)
    let orderId := node.id
    let b ← b.unlink P slot
    let (b, evs) ← massCancelLoop P accountId slots b
    pure (b, .cancelled accountId orderId :: evs)

def massCancel (P : Profile) (b : Book) (accountId : ℕ) : Except Panic (Book × List Event) :=
  match b.accounts.lookup accountId with
  | none => .ok (b, [])
  | some entry => massCancelLoop P accountId entry.slots { b with massCancelScratch := entry.slots }

/-- The loop of `walk_level`. -/
def walkLoop (P : Profile) (arena : Arena) (side : Side) (price : ℕ) :
    ℕ → List ℕ → ℕ → Option ℕ → Option ℕ → Except Panic (List ℕ × ℕ × Option ℕ)
  | _, slots, total, prevSlot, none => .ok (slots, total, prevSlot)
  | 0, _, _, _, some _ => .error .diverges
  | fuel + 1, slots, total, prevSlot, some cursor => do
    let node ← expect "level chain points to freed slot" (arena.get cursor)
    check (node.prev = prevSlot) "back-link mismatch in level"
    check (node.price = price) "node filed under wrong price"
    check (node.side = side) "node filed on wrong side"
    check (node.qty ≠ 0) "resting node has zero quantity"
    check (node.price ≠ 0) "resting node has zero price"
    let total ← P.store64 ((total : ℤ) + node.qty)
    walkLoop P arena side price fuel (slots ++ [cursor]) total (some cursor) node.next

/-- Walk one level's chain from head to tail, checking it on the way; returns the slots visited. -/
def walkLevel (P : Profile) (b : Book) (side : Side) (price : ℕ) (level : Level) :
    Except Panic (List ℕ) := do
  let (slots, total, prevSlot) ← walkLoop P b.arena side price (b.arena.slots.length + 1) [] 0 none level.head
  check (prevSlot = level.tail) "level did not walk to its cached tail"
  check (slots.length = level.count) "level count mismatch"
  check (total = level.totalQty) "level total_qty mismatch"
  pure slots

/-- The accounts of a walked level, in order of first appearance, after those already seen. -/
def accountsSeen (arena : Arena) : List ℕ → List ℕ → Except Panic (List ℕ)
  | [], order => .ok order
  | slot :: slots, order => do
    let node ← expect "slot just returned by walk_level must be live" (arena.get slot)
    accountsSeen arena slots (if node.account ∈ order then order else order ++ [node.account])

/-- The level section of `snapshot` for one side. -/
def snapshotLevels (P : Profile) (b : Book) (side : Side) :
    List (ℕ × Level) → List ℕ → Except Panic (List ℕ × List Event)
  | [], order => .ok (order, [])
  | (price, level) :: levels, order => do
    let slots ← b.walkLevel P side price level
    let order ← accountsSeen b.arena slots order
    let (order, evs) ← snapshotLevels P b side levels order
    pure (order, .snapshotLevel side price level.totalQty level.count :: evs)

/-- The account section of `snapshot`. -/
def snapshotAccounts (b : Book) : List ℕ → Except Panic (List Event)
  | [] => .ok []
  | accountId :: order => do
    let entry ← expect "account discovered via a resting order must have an AccountEntry"
      (b.accounts.lookup accountId)
    let evs ← snapshotAccounts b order
    pure (.snapshotAccount accountId entry.openOrderCount entry.notional :: evs)

def snapshot (P : Profile) (b : Book) : Except Panic (List Event) := do
  let (order, bidEvs) ← b.snapshotLevels P .buy b.bids.toList []
  let (order, askEvs) ← b.snapshotLevels P .sell b.asks.toList order
  let accountEvs ← b.snapshotAccounts order
  let (bestBid, bestAsk) := b.topOfBook
  pure (bidEvs ++ askEvs ++ accountEvs ++
    [.snapshotSummary bestBid bestAsk b.lastTrade (bidEvs.length + askEvs.length) order.length])

/-- A loop over a `HashMap` or a `HashSet` whose body only checks. The entries come in no
particular order, so a failure does not say at which entry. -/
def forEach {α : Type*} (entries : Multiset α) (body : α → Except Panic Unit) : Except Panic Unit :=
  check (∀ a ∈ entries, (body a).isOk = true) "an entry failed its checks"

/-- File the slots of a walked level, none of which may have been found before. -/
def insertFound : List ℕ → Finset ℕ → Except Panic (Finset ℕ)
  | [], found => .ok found
  | slot :: slots, found => do
    check (slot ∉ found) "slot reachable from more than one level"
    insertFound slots (insert slot found)

/-- The levels of one side walked by `assert_invariants`. -/
def foundInLevels (P : Profile) (b : Book) (side : Side) :
    List (ℕ × Level) → Finset ℕ → Except Panic (Finset ℕ)
  | [], found => .ok found
  | (price, level) :: levels, found => do
    let slots ← b.walkLevel P side price level
    let found ← insertFound slots found
    foundInLevels P b side levels found

/-- An entry of the order index against the book. -/
def checkIndexEntry (b : Book) (found : Finset ℕ) (e : Σ _ : Key, ℕ) : Except Panic Unit := do
  check (e.2 ∈ found) "order index entry points to a slot not reachable from any level"
  let node ← expect "order index points to freed slot" (b.arena.get e.2)
  check (node.id = e.1.2) "order index key order_id mismatch"
  check (node.account = e.1.1) "order index key account mismatch"

/-- A found slot against the order index. -/
def checkIndexed (b : Book) (slot : ℕ) : Except Panic Unit := do
  let node ← expect "slot reachable from a level must be live" (b.arena.get slot)
  check (b.orderIndex.lookup (node.account, node.id) = some slot) "node has no matching order index entry"

/-- A found slot against its account's slot array. -/
def checkAccount (b : Book) (slot : ℕ) : Except Panic Unit := do
  let node ← expect "slot reachable from a level must be live" (b.arena.get slot)
  let entry ← expect "node has no AccountEntry" (b.accounts.lookup node.account)
  check (entry.slots[node.acctIdx]? = some slot) "node's acct_idx does not point back to its own slot"

/-- The walk over an account's slot array, from position `idx` on; returns the notional. -/
def walkSlots (P : Profile) (b : Book) (account : ℕ) : List ℕ → ℕ → ℕ → Except Panic ℕ
  | [], _, walkedNotional => .ok walkedNotional
  | slot :: slots, idx, walkedNotional => do
    let node ← expect "account slots points to freed slot" (b.arena.get slot)
    check (node.account = account) "account slots entry owned by wrong account"
    check (node.acctIdx = idx) "account slots entry acct_idx mismatch"
    let walkedNotional ← P.store128 ((walkedNotional : ℤ) + (node.price * node.qty : ℕ))
    walkSlots P b account slots (idx + 1) walkedNotional

/-- An account's entry against the book. -/
def checkEntry (P : Profile) (b : Book) (e : Σ _ : ℕ, AccountEntry) : Except Panic Unit := do
  let walkedNotional ← walkSlots P b e.1 e.2.slots 0 0
  check (walkedNotional = e.2.notional) "account notional cache mismatch"

def assertInvariants (P : Profile) (b : Book) : Except Panic Unit := do
  check (∀ e ∈ b.bids.toList, e.2.isEmpty = false) "empty bid level remains"
  check (∀ e ∈ b.asks.toList, e.2.isEmpty = false) "empty ask level remains"
  let found ← foundInLevels P b .buy b.bids.toList ∅
  let found ← foundInLevels P b .sell b.asks.toList found
  let len ← b.arena.lenChecked P
  check (len = found.card) "arena has slots not reachable from any level"
  check (b.orderIndex.entries.card = found.card) "order index size does not match reachable slot count"
  forEach b.orderIndex.entries (b.checkIndexEntry found)
  forEach found.val b.checkIndexed
  forEach found.val b.checkAccount
  forEach b.accounts.entries (b.checkEntry P)
  match b.bestBid, b.bestAsk with
  | some bid, some ask => check (bid < ask) "book is crossed or locked"
  | _, _ => .ok ()

end Book

end MatchingEngine
