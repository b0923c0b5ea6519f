import MatchingEngine.Core.Engine

/-!
# The risk gate

`risk::lib`: kill switch, per-account limits and price band, checked before every
command reaches the engine. Its sums are stored like the book's: `account_notional +
incoming`, the band bounds and the mid price can wrap or panic with the build.
-/

namespace MatchingEngine

/-- `RiskConfig`; the limits come from a file and can be any value of their types. -/
structure RiskConfig where
  maxOpenOrders : ℕ
  maxNotional : ℕ
  priceBandPct : ℕ
  maxOpenOrders_lt : maxOpenOrders < 2 ^ 64
  maxNotional_lt : maxNotional < 2 ^ 128
  priceBandPct_lt : priceBandPct < 2 ^ 64

/-- `MAX_OPEN_ORDERS`, `MAX_NOTIONAL_TICKS`, `PRICE_BAND_PCT`. -/
def RiskConfig.default : RiskConfig := ⟨50, 100000000, 10, by decide, by decide, by decide⟩

structure RiskState where
  config : RiskConfig
  killSwitchEngaged : Bool

namespace RiskState

def new (config : RiskConfig) : RiskState := ⟨config, false⟩

/-- The drain policy: no new orders, and only amends that commit to nothing new. -/
def killSwitchCheck (cmd : Command) (book : Book) : Option Event :=
  match cmd with
  | .newOrder accountId orderId _ _ _ _ _ _ => some (.rejected accountId orderId .killSwitchActive)
  | .cancelOrder _ _ => none
  | .massCancel _ => none
  | .cancelReplace accountId orderId newPrice newQty =>
    match book.restingOrderSnapshot accountId orderId with
    | none => none
    | some (oldPrice, oldQty) =>
      if newPrice ≠ oldPrice ∨ newQty > oldQty then some (.rejected accountId orderId .killSwitchActive) else none
  | .killSwitch _ => none
  | .snapshot => none

/-- A market order's notional reference: last trade, else the best price on the side it sweeps. -/
def marketReferencePrice (side : Side) (book : Book) : Option ℕ :=
  match book.lastTrade with
  | some last => some last
  | none =>
    match side with
    | .buy => book.bestAsk
    | .sell => book.bestBid

/-- The band's reference: last trade, else the mid of a two-sided book. -/
def priceBandReference (P : Profile) (book : Book) : Except Panic (Option ℕ) :=
  match book.lastTrade with
  | some last => .ok (some last)
  | none =>
    match book.bestBid, book.bestAsk with
    | some bid, some ask => do
      let sum ← P.store64 ((bid : ℤ) + ask)
      pure (some (sum / 2))
    | _, _ => .ok none

/-- The band check of a limit price against its reference. -/
def withinBand (P : Profile) (pct reference price : ℕ) : Except Panic Bool := do
  let below ← P.store128 (100 - (pct : ℤ))
  let lower ← P.store128 ((reference : ℤ) * below)
  let above ← P.store128 (100 + (pct : ℤ))
  let upper ← P.store128 ((reference : ℤ) * above)
  pure (!(price < lower / 100 || price > upper / 100))

/-- Per-account limits and price band for a new order. -/
def newOrderCheck (P : Profile) (config : RiskConfig) (accountId orderId : ℕ) (side : Side) (price qty : ℕ)
    (kind : OrderKind) (tif : Tif) (book : Book) : Except Panic (Option Event) :=
  let reject := fun reason => Except.ok (some (Event.rejected accountId orderId reason))
  let canRest : Bool := kind = .limit && (tif = .gtc || tif = .postOnly)
  if canRest && book.accountOpenOrderCount accountId ≥ config.maxOpenOrders then reject .maxOpenOrders
  else
    let effectivePrice := match kind with
      | .limit => some price
      | .market => marketReferencePrice side book
    match effectivePrice with
    | none => reject .notFullyFillable
    | some effectivePrice => do
      let totalNotional ← P.store128 ((book.accountNotional accountId : ℤ) + (effectivePrice * qty : ℕ))
      if totalNotional > config.maxNotional then reject .maxNotional
      else
        match kind with
        | .market => pure none
        | .limit =>
          match ← priceBandReference P book with
          | none => pure none
          | some reference =>
            if ← withinBand P config.priceBandPct reference price then pure none
            else reject .priceBandViolation

/-- The gate: a reject, or nothing. A kill-switch command sets the switch. -/
def preApplyCheck (P : Profile) (s : RiskState) (cmd : Command) (book : Book) :
    Except Panic (RiskState × Option Event) :=
  match cmd with
  | .killSwitch engaged => .ok ({ s with killSwitchEngaged := engaged }, none)
  | cmd =>
    match (if s.killSwitchEngaged then killSwitchCheck cmd book else none) with
    | some reject => .ok (s, some reject)
    | none =>
      match cmd with
      | .newOrder accountId orderId side price qty kind tif _ => do
        pure (s, ← newOrderCheck P s.config accountId orderId side price qty kind tif book)
      | _ => .ok (s, none)

end RiskState

/-- The matching thread's state. -/
structure System where
  engine : Engine
  risk : RiskState
  engineSeq : ℕ

namespace System

def new (config : RiskConfig) : System := ⟨.new, .new config, 0⟩

/-- `process_command`: the gate, then the engine. Every event carries the command's number. -/
def processCommand (P : Profile) (s : System) (cmd : Command) : Except Panic (System × List (ℕ × Event)) := do
  let seq := s.engineSeq + 1
  let (risk, rejected) ← s.risk.preApplyCheck P cmd s.engine.book
  match rejected with
  | some rejected => pure (⟨s.engine, risk, seq⟩, [(seq, rejected)])
  | none => do
    let (engine, evs) ← s.engine.apply P cmd
    pure (⟨engine, risk, seq⟩, evs.map (fun ev => (seq, ev)))

/-- Commands processed one by one. -/
def runFrom (P : Profile) (s : System) (cmds : List Command) : Except Panic (System × List (List (ℕ × Event))) :=
  run (processCommand P) s cmds

end System

end MatchingEngine
