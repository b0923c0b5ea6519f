import MatchingEngine.Core.Types
import MatchingEngine.Lib.Dense
import MatchingEngine.Lib.Priority

/-!
# The reference order book

What the book is for, without arena, links, level caches or indexes: per side one
list of resting orders in priority order (best price first, then order of resting),
per account the list of its orders in slot-array order, and the last trade price.

Aggressors are matched by a left fold over the crossing prefix of the opposite list
(`Ref.sweep`). Quantity and notional sums are exact; `P` only says how the engine
under comparison stores the sums it publishes, and is the identity for exact sums.
-/

namespace MatchingEngine

/-- A resting order. -/
structure Order where
  account : ℕ
  id : ℕ
  price : ℕ
  qty : ℕ
  deriving DecidableEq, Repr

/-- What it is found by. -/
def Order.key (o : Order) : Key := (o.account, o.id)

/-- On side `s`, price `p` ranks at least as well as `q`. -/
def Side.better : Side → ℕ → ℕ → Prop
  | .buy, p, q => q ≤ p
  | .sell, p, q => p ≤ q

instance (s : Side) : DecidableRel s.better := fun p q => by
  cases s <;> simp only [Side.better] <;> infer_instance

/-- An aggressor on side `s` with limit `limit` trades at the resting price `p`. -/
def Side.crosses : Side → ℕ → ℕ → Prop
  | .buy, limit, p => p ≤ limit
  | .sell, limit, p => limit ≤ p

instance (s : Side) (limit p : ℕ) : Decidable (s.crosses limit p) := by
  cases s <;> simp only [Side.crosses] <;> infer_instance

/-- Total quantity at a price. -/
def qtyAt (l : List Order) (p : ℕ) : ℕ := ((l.filter (fun o => o.price = p)).map Order.qty).sum

/-- Gross notional of an account. -/
def notionalIn (l : List Order) (a : ℕ) : ℕ :=
  ((l.filter (fun o => o.account = a)).map (fun o => o.price * o.qty)).sum

/-- The book as lists: each side from its best price on and in time order at a price, each account's
orders in the order of its slot list. -/
structure Ref where
  bids : List Order
  asks : List Order
  slots : ℕ → List ℕ
  lastTrade : Option ℕ

namespace Ref

/-- Nothing rests. -/
def new : Ref := ⟨[], [], fun _ => [], none⟩

/-- One side of the book. -/
def side (r : Ref) : Side → List Order
  | .buy => r.bids
  | .sell => r.asks

/-- One side replaced. -/
def setSide (r : Ref) (s : Side) (l : List Order) : Ref :=
  match s with
  | .buy => { r with bids := l }
  | .sell => { r with asks := l }

/-- All resting orders. -/
def orders (r : Ref) : List Order := r.bids ++ r.asks

/-- A resting order by its key, with its side. -/
def find (r : Ref) (k : Key) : Option (Side × Order) :=
  match r.bids.find? (fun o => o.key = k) with
  | some o => some (.buy, o)
  | none => (r.asks.find? (fun o => o.key = k)).map (fun o => (.sell, o))

/-- An order leaves the book; its account's list closes the gap with its last order. -/
def remove (r : Ref) (s : Side) (o : Order) : Ref :=
  { r.setSide s ((r.side s).filter (fun x => x.key ≠ o.key)) with
    slots := Function.update r.slots o.account
      (swapRemove (r.slots o.account) ((r.slots o.account).idxOf o.id)) }

/-- An order's quantity changes, in place. -/
def setQty (r : Ref) (s : Side) (k : Key) (q : ℕ) : Ref :=
  r.setSide s ((r.side s).map (fun x => if x.key = k then { x with qty := q } else x))

/-- An order comes to rest behind every order that ranks at least as well. -/
def rest (r : Ref) (s : Side) (o : Order) : Ref :=
  { r.setSide s (insertBack Order.price s.better o (r.side s)) with
    slots := Function.update r.slots o.account (r.slots o.account ++ [o.id]) }

/-- The crossing prefix of the opposite list. -/
def crossing (r : Ref) (s : Side) (limit : ℕ) : List Order :=
  (r.side s.opposite).takeWhile (fun o => s.crosses limit o.price)

/-- The two fills and the print of one match. -/
def fillEvents (accountId orderId : ℕ) (s : Side) (o : Order) (q remaining : ℕ) :
    List Event :=
  [.filled accountId orderId s o.price q remaining (if remaining = 0 then .filled else .partiallyFilled),
   .filled o.account o.id s.opposite o.price q (o.qty - q)
     (if o.qty - q = 0 then .filled else .partiallyFilled),
   .trade o.price q s]

/-- The aggressor meets one resting order: own orders are cancelled, foreign ones filled. -/
def matchStep (accountId orderId : ℕ) (s : Side) :
    Ref × ℕ × List Event → Order → Ref × ℕ × List Event
  | (r, remaining, evs), o =>
    if remaining = 0 then (r, remaining, evs)
    else if o.account = accountId then
      (r.remove s.opposite o, remaining, evs ++ [.cancelled o.account o.id])
    else
      let q := min remaining o.qty
      let r' := if q = o.qty then r.remove s.opposite o else r.setQty s.opposite o.key (o.qty - q)
      ({ r' with lastTrade := some o.price }, remaining - q,
        evs ++ fillEvents accountId orderId s o q (remaining - q))

/-- Matching: every order the limit crosses takes its turn, the best price first. -/
def sweep (r : Ref) (accountId orderId : ℕ) (s : Side) (limit qty : ℕ) :
    Ref × ℕ × List Event :=
  (r.crossing s limit).foldl (matchStep accountId orderId s) (r, qty, [])

/-- Rest what a sweep left over. -/
def restRemainder (r : Ref) (accountId orderId : ℕ) (s : Side) (price remaining : ℕ) : Ref :=
  if remaining > 0 then r.rest s ⟨accountId, orderId, price, remaining⟩ else r

/-- A key that rests already is turned away. -/
def unlessDuplicate (r : Ref) (accountId orderId : ℕ) (body : Ref × List Event) :
    Ref × List Event :=
  if (r.find (accountId, orderId)).isSome then (r, [.rejected accountId orderId .duplicateOrderId]) else body

/-- Match, and rest what remains. -/
def submitGtc (r : Ref) (accountId orderId : ℕ) (s : Side) (price qty : ℕ) :
    Ref × List Event :=
  r.unlessDuplicate accountId orderId <|
    let (r', remaining, evs) := r.sweep accountId orderId s price qty
    (r'.restRemainder accountId orderId s price remaining, evs ++ [.accepted accountId orderId remaining])

/-- IOC, and a market order at its unbounded limit: whatever is left is discarded. -/
def submitIoc (r : Ref) (accountId orderId : ℕ) (s : Side) (price qty : ℕ) :
    Ref × List Event :=
  r.unlessDuplicate accountId orderId <|
    let (r', _, evs) := r.sweep accountId orderId s price qty
    (r', evs ++ [.accepted accountId orderId 0])

/-- The foreign quantity an aggressor could trade against. -/
def foreignDepth (r : Ref) (accountId : ℕ) (s : Side) (limit : ℕ) : ℕ :=
  (((r.crossing s limit).filter (fun o => o.account ≠ accountId)).map Order.qty).sum

/-- Match all, or nothing. -/
def submitFok (r : Ref) (accountId orderId : ℕ) (s : Side) (price qty : ℕ) :
    Ref × List Event :=
  r.unlessDuplicate accountId orderId <|
    if qty ≤ r.foreignDepth accountId s price then
      let (r', _, evs) := r.sweep accountId orderId s price qty
      (r', evs ++ [.accepted accountId orderId 0])
    else (r, [.rejected accountId orderId .notFullyFillable])

/-- Own crossing orders ahead of the first foreign one. -/
def ownPrefix (r : Ref) (accountId : ℕ) (s : Side) (limit : ℕ) : List Order :=
  (r.crossing s limit).takeWhile (fun o => o.account = accountId)

/-- Rest without a trade, or not at all. -/
def submitPostonly (r : Ref) (accountId orderId : ℕ) (s : Side) (price qty : ℕ) : Ref × List Event :=
  r.unlessDuplicate accountId orderId <|
    let own := r.ownPrefix accountId s price
    let r' := own.foldl (fun r o => r.remove s.opposite o) r
    let evs := own.map (fun o => Event.cancelled o.account o.id)
    if ∃ o ∈ r.crossing s price, o.account ≠ accountId then
      (r', evs ++ [.rejected accountId orderId .wouldCross])
    else (r'.rest s ⟨accountId, orderId, price, qty⟩, evs ++ [.accepted accountId orderId qty])

/-- An amend: in place if it only shrinks, else out and in again. -/
def modify (r : Ref) (accountId orderId newPrice newQty : ℕ) :
    Ref × List Event :=
  if newQty = 0 then (r, [.rejected accountId orderId .zeroQuantity])
  else match r.find (accountId, orderId) with
    | none => (r, [.rejected accountId orderId .unknownOrderId])
    | some (s, o) =>
      if newPrice = o.price ∧ newQty ≤ o.qty then
        (r.setQty s o.key newQty, [.replaced accountId orderId newQty true])
      else
        let (r', remaining, evs) := (r.remove s o).sweep accountId orderId s newPrice newQty
        (r'.restRemainder accountId orderId s newPrice remaining,
          .replaced accountId orderId newQty false :: evs)

/-- Take an order out. -/
def cancel (r : Ref) (accountId orderId : ℕ) : Ref × List Event :=
  match r.find (accountId, orderId) with
  | some (s, o) => (r.remove s o, [.cancelled accountId orderId])
  | none => (r, [.rejected accountId orderId .unknownOrderId])

/-- Remove the order under a key, if there is one. -/
def removeKey (r : Ref) (k : Key) : Ref :=
  match r.find k with
  | some (s, o) => r.remove s o
  | none => r

/-- Take all of an account's orders out, in the order of its slot list. -/
def massCancel (r : Ref) (accountId : ℕ) : Ref × List Event :=
  ((r.slots accountId).foldl (fun r id => r.removeKey (accountId, id)) r,
    (r.slots accountId).map (fun id => .cancelled accountId id))

/-- A sum as the engine stores it. -/
def stored (w : Word) (n : ℕ) : ℕ := (w.val n).getD 0

/-- Best price and its quantity, as stored. -/
def touch (P : Profile) (l : List Order) : TouchSide :=
  l.head?.map (fun o => (o.price, stored P.u64 (qtyAt l o.price)))

/-- Both touches. -/
def topOfBook (P : Profile) (r : Ref) : TouchSide × TouchSide := (touch P r.bids, touch P r.asks)

/-- The occupied prices of a side, ascending. -/
def prices (r : Ref) : Side → List ℕ
  | .buy => (r.bids.map Order.price).dedup.reverse
  | .sell => (r.asks.map Order.price).dedup

/-- What the account has resting, price times quantity. -/
def notional (r : Ref) (a : ℕ) : ℕ := notionalIn r.orders a

/-- The level rows of one side. -/
def snapshotLevels (P : Profile) (r : Ref) (s : Side) : List Event :=
  (r.prices s).map (fun p =>
    .snapshotLevel s p (stored P.u64 (qtyAt (r.side s) p)) ((r.side s).filter (fun o => o.price = p)).length)

/-- The resting orders of a side in snapshot order: ascending levels, each in order of resting. -/
def snapshotOrders (r : Ref) (s : Side) : List Order :=
  (r.prices s).flatMap (fun p => (r.side s).filter (fun o => o.price = p))

/-- Each element once, at its first appearance. -/
def firstSeen : List ℕ → List ℕ → List ℕ
  | seen, [] => seen
  | seen, a :: as => firstSeen (if a ∈ seen then seen else seen ++ [a]) as

/-- All rows. -/
def snapshot (P : Profile) (r : Ref) : List Event :=
  let accounts := firstSeen [] ((r.snapshotOrders .buy ++ r.snapshotOrders .sell).map Order.account)
  r.snapshotLevels P .buy ++ r.snapshotLevels P .sell ++
    accounts.map (fun a => .snapshotAccount a (r.slots a).length (stored P.u128 (r.notional a))) ++
    [.snapshotSummary (r.topOfBook P).1 (r.topOfBook P).2 r.lastTrade
      ((r.prices .buy).length + (r.prices .sell).length) accounts.length]

/-- One command. -/
def dispatch (P : Profile) (r : Ref) : Command → Ref × List Event
  | .newOrder accountId orderId s price qty kind tif _ =>
    match kind with
    | .market => r.submitIoc accountId orderId s (match s with | .buy => u64Max | .sell => 0) qty
    | .limit =>
      match tif with
      | .gtc => r.submitGtc accountId orderId s price qty
      | .ioc => r.submitIoc accountId orderId s price qty
      | .fok => r.submitFok accountId orderId s price qty
      | .postOnly => r.submitPostonly accountId orderId s price qty
  | .cancelOrder accountId orderId => r.cancel accountId orderId
  | .cancelReplace accountId orderId newPrice newQty => r.modify accountId orderId newPrice newQty
  | .massCancel accountId => r.massCancel accountId
  | .snapshot => (r, r.snapshot P)
  | .killSwitch _ => (r, [])

/-- One command, with the update behind it if the touch has changed. -/
def apply (P : Profile) (r : Ref) (cmd : Command) : Ref × List Event :=
  let (r', evs) := r.dispatch P cmd
  (r', if r.topOfBook P ≠ r'.topOfBook P then evs ++ [.bookUpdate (r'.topOfBook P).1 (r'.topOfBook P).2]
    else evs)

/-- Commands applied one by one. -/
def runFrom (P : Profile) : Ref → List Command → Ref × List (List Event)
  | r, [] => (r, [])
  | r, c :: cs =>
    let (r', evs) := r.apply P c
    let (r'', evss) := runFrom P r' cs
    (r'', evs :: evss)

end Ref

end MatchingEngine
