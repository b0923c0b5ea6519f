import MatchingEngine.Core.Engine

/-!
# The conservation ledger

`ConservationModel` and `apply_op` of the book's property tests: a ledger kept from the
emitted events alone, next to the book. It counts quantity submitted, filled, cancelled
and discarded, and shadows the resting quantity of every order; where its own books do
not add up it panics.
-/

namespace MatchingEngine

/-- An operation of the book. -/
inductive Op
  | gtc (account order : ℕ) (side : Side) (price qty : ℕ)
  | ioc (account order : ℕ) (side : Side) (price qty : ℕ)
  | fok (account order : ℕ) (side : Side) (price qty : ℕ)
  | postOnly (account order : ℕ) (side : Side) (price qty : ℕ)
  | market (account order : ℕ) (side : Side) (qty : ℕ)
  | cancel (account order : ℕ)
  | modify (account order price qty : ℕ)
  | massCancel (account : ℕ)
  deriving DecidableEq, Repr

namespace Op

/-- The book function behind an operation. -/
def apply (P : Profile) (b : Book) : Op → Except Panic (Book × List Event)
  | .gtc account order side price qty => b.submitGtc P account order side price qty
  | .ioc account order side price qty => b.submitIoc P account order side price qty
  | .fok account order side price qty => b.submitFok P account order side price qty
  | .postOnly account order side price qty => b.submitPostonly P account order side price qty
  | .market account order side qty => b.submitMarket P account order side qty
  | .cancel account order => b.cancel P account order
  | .modify account order price qty => b.modify P account order price qty
  | .massCancel account => b.massCancel P account

/-- The command that dispatches to the operation. -/
def command : Op → Command
  | .gtc account order side price qty => .newOrder account order side price qty .limit .gtc 0
  | .ioc account order side price qty => .newOrder account order side price qty .limit .ioc 0
  | .fok account order side price qty => .newOrder account order side price qty .limit .fok 0
  | .postOnly account order side price qty => .newOrder account order side price qty .limit .postOnly 0
  | .market account order side qty => .newOrder account order side 0 qty .market .gtc 0
  | .cancel account order => .cancelOrder account order
  | .modify account order price qty => .cancelReplace account order price qty
  | .massCancel account => .massCancel account

/-- The operations are the engine's dispatch of their commands. -/
theorem apply_eq_dispatch (P : Profile) (b : Book) (op : Op) : op.apply P b = Engine.dispatch P b op.command := by
  cases op <;> rfl

/-- Submits have a quantity, and limit orders a price where `debug_assert!` runs. -/
def Nonzero (debug : Bool) : Op → Prop
  | .gtc _ _ _ price qty => qty ≠ 0 ∧ (debug = true → price ≠ 0)
  | .ioc _ _ _ price qty => qty ≠ 0 ∧ (debug = true → price ≠ 0)
  | .fok _ _ _ price qty => qty ≠ 0 ∧ (debug = true → price ≠ 0)
  | .postOnly _ _ _ price qty => qty ≠ 0 ∧ (debug = true → price ≠ 0)
  | .market _ _ _ qty => qty ≠ 0
  | _ => True

instance (debug : Bool) : DecidablePred (Nonzero debug) := fun op => by
  cases op <;> simp only [Nonzero] <;> infer_instance

theorem Nonzero.checked {debug : Bool} {op : Op} (h : op.Nonzero debug) : op.command.Checked (.exact debug) := by
  cases op with
  | gtc => exact ⟨h.1, fun hd _ => h.2 hd⟩
  | ioc => exact ⟨h.1, fun hd _ => h.2 hd⟩
  | fok => exact ⟨h.1, fun hd _ => h.2 hd⟩
  | postOnly => exact ⟨h.1, fun hd _ => h.2 hd⟩
  | market => exact ⟨h, by simp⟩
  | _ => trivial

end Op

/-- `ConservationModel`: the running totals, and what it believes to rest. -/
structure ConservationModel where
  submitted : ℕ
  filled : ℕ
  cancelled : ℕ
  discarded : ℕ
  resting : Finmap (fun _ : Key => ℕ)

/-- `u64` subtraction, which must not go below zero. -/
def minus (a b : ℕ) : Except Panic ℕ := if b ≤ a then .ok (a - b) else .error .overflow

/-- A difference that is in range. -/
theorem minus_ok {a b : ℕ} (h : b ≤ a) : minus a b = .ok (a - b) := if_pos h

namespace ConservationModel

def default : ConservationModel := ⟨0, 0, 0, 0, ∅⟩

/-- One turn of the loop of `consume_cancelled`. -/
def consumeCancelledEvent (m : ConservationModel) : Event → Except Panic ConservationModel
  | .cancelled accountId orderId => do
    let qty ← expect "cancelled order must have been resting in the model" (m.resting.lookup (accountId, orderId))
    pure { m with resting := m.resting.erase (accountId, orderId), cancelled := m.cancelled + qty }
  | _ => .ok m

/-- Every cancelled order leaves the shadow, its quantity credited to `cancelled`. -/
def consumeCancelled (m : ConservationModel) (events : List Event) : Except Panic ConservationModel :=
  events.foldlM consumeCancelledEvent m

/-- One turn of the loop of `consume_filled`. -/
def consumeFilledEvent (selfId : Key) : ConservationModel × ℕ → Event → Except Panic (ConservationModel × ℕ)
  | (m, selfFilled), .filled accountId orderId _ _ qty _ _ =>
    if (accountId, orderId) = selfId then .ok (m, selfFilled + qty)
    else do
      let entry ← expect "maker must have been resting in the model" (m.resting.lookup (accountId, orderId))
      let entry ← minus entry qty
      let resting := if entry = 0 then m.resting.erase (accountId, orderId)
        else m.resting.insert (accountId, orderId) entry
      pure ({ m with resting, filled := m.filled + qty }, selfFilled)
  | acc, _ => .ok acc

/-- Makers' fills shrink the shadow and are credited to `filled`; the operation's own are returned. -/
def consumeFilled (m : ConservationModel) (selfId : Key) (events : List Event) : Except Panic (ConservationModel × ℕ) :=
  events.foldlM (consumeFilledEvent selfId) (m, 0)

/-- Was the command turned away? -/
def isRejected (events : List Event) : Bool :=
  events.any (fun
    | .rejected _ _ _ => true
    | _ => false)

/-- `record_submit`: the events of a new order, entered into the totals. -/
def recordSubmit (m : ConservationModel) (selfId : Key) (qty : ℕ) (restsIfUnfilled : Bool) (events : List Event) :
    Except Panic ConservationModel := do
  -- a PostOnly reject can come after own orders were cancelled
  let m ← m.consumeCancelled events
  if isRejected events then pure m
  else
    let m := { m with submitted := m.submitted + qty }
    let (m, selfFilled) ← m.consumeFilled selfId events
    let restingAfter ← minus qty selfFilled
    if restingAfter > 0 then
      if restsIfUnfilled then pure { m with resting := m.resting.insert selfId restingAfter }
      else pure { m with discarded := m.discarded + restingAfter }
    else pure m

/-- `record_modify`: the same for an amend. -/
def recordModify (m : ConservationModel) (selfId : Key) (events : List Event) : Except Panic ConservationModel :=
  if isRejected events then .ok m
  else
    match events with
    | .replaced _ _ newQty _ :: rest => do
      let oldQty ← expect "modified order must have been resting in the model" (m.resting.lookup selfId)
      let m := if newQty ≥ oldQty then { m with submitted := m.submitted + (newQty - oldQty) }
        else { m with cancelled := m.cancelled + (oldQty - newQty) }
      let m ← m.consumeCancelled rest
      let (m, selfFilled) ← m.consumeFilled selfId rest
      let restingAfter ← minus newQty selfFilled
      if restingAfter > 0 then pure { m with resting := m.resting.insert selfId restingAfter }
      else pure { m with resting := m.resting.erase selfId }
    | _ :: _ => .error (.assertion "modify's first event must be Replaced")
    | [] => .error .indexOutOfRange

def recordCancelOrMassCancel (m : ConservationModel) (events : List Event) : Except Panic ConservationModel :=
  if isRejected events then .ok m else m.consumeCancelled events

/-- What `apply_op` records of an operation's events. -/
def record (m : ConservationModel) (op : Op) (events : List Event) : Except Panic ConservationModel :=
  match op with
  | .gtc account order _ _ qty => m.recordSubmit (account, order) qty true events
  | .ioc account order _ _ qty => m.recordSubmit (account, order) qty false events
  | .fok account order _ _ qty => m.recordSubmit (account, order) qty false events
  | .postOnly account order _ _ qty => m.recordSubmit (account, order) qty true events
  | .market account order _ qty => m.recordSubmit (account, order) qty false events
  | .cancel _ _ => m.recordCancelOrMassCancel events
  | .modify account order _ _ => m.recordModify (account, order) events
  | .massCancel _ => m.recordCancelOrMassCancel events

end ConservationModel

/-- `apply_op`: one operation on the book, recorded in the ledger. -/
def applyOp (P : Profile) : Book × ConservationModel → Op → Except Panic ((Book × ConservationModel) × List Event)
  | (book, model), op => do
    let (book, events) ← op.apply P book
    let model ← model.record op events
    pure ((book, model), events)

end MatchingEngine
