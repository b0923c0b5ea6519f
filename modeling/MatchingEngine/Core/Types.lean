import MatchingEngine.Lib.Word

/-!
# Domain types

The types of `core::types`, `core::error` and `core::event`. `Price`, `Qty` and
the identifiers are `u64` newtypes in the source; here they are naturals, and the
one place a value can leave its range is a cached sum (`Level::total_qty`,
`AccountEntry::notional`, the risk arithmetic), which goes through a `Word`.
The counters that number commands and messages (`EngineSeq`, the stream numbers of a
replay) are counted without a bound; a result that tells messages apart by them takes
fewer than `2 ^ 64` commands.

A `Profile` fixes how these sums are stored and whether `debug_assert!` is
compiled in. A `Panic` is any way the process can stop.
-/

namespace MatchingEngine

/-- `u64::MAX`. -/
def u64Max : ℕ := 2 ^ 64 - 1

/-- `Side`: whether an order buys or sells. -/
inductive Side
  | buy
  | sell
  deriving DecidableEq, Repr

/-- The side an aggressor sweeps. -/
def Side.opposite : Side → Side
  | .buy => .sell
  | .sell => .buy

/-- The other side's other side. -/
@[simp] theorem Side.opposite_opposite (s : Side) : s.opposite.opposite = s := by cases s <;> rfl

theorem Side.opposite_ne (s : Side) : s.opposite ≠ s := by cases s <;> decide

/-- `OrderKind`: a market order has no limit price. -/
inductive OrderKind
  | limit
  | market
  deriving DecidableEq, Repr

/-- `Tif`, time in force: what becomes of a quantity that does not match at once. -/
inductive Tif
  | gtc
  | ioc
  | fok
  | postOnly
  deriving DecidableEq, Repr

/-- `FillState`: whether an order has quantity left after a fill. -/
inductive FillState
  | partiallyFilled
  | filled
  deriving DecidableEq, Repr

/-- `RejectReason`, of the wire, the risk gate and the book. -/
inductive RejectReason
  | malformedMessage
  | unknownMessageType
  | duplicateOrderId
  | unknownOrderId
  | zeroQuantity
  | wouldCross
  | notFullyFillable
  | killSwitchActive
  | maxOpenOrders
  | maxNotional
  | priceBandViolation
  | zeroPrice
  deriving DecidableEq, Repr

/-- `Command`: what a client asks for, and the kill switch. -/
inductive Command
  | newOrder (accountId orderId : ℕ) (side : Side) (price qty : ℕ)
      (kind : OrderKind) (tif : Tif) (clientTs : ℕ)
  | cancelOrder (accountId orderId : ℕ)
  | cancelReplace (accountId orderId newPrice newQty : ℕ)
  | massCancel (accountId : ℕ)
  | killSwitch (engaged : Bool)
  | snapshot
  deriving DecidableEq, Repr

/-- One side of the top of book. -/
abbrev TouchSide := Option (ℕ × ℕ)

/-- `Event`: reports to clients, market data and the rows of a snapshot. -/
inductive Event
  | accepted (accountId orderId restingQty : ℕ)
  | rejected (accountId orderId : ℕ) (reason : RejectReason)
  | filled (accountId orderId : ℕ) (side : Side) (price qty restingQty : ℕ) (state : FillState)
  | cancelled (accountId orderId : ℕ)
  | replaced (accountId orderId newQty : ℕ) (priorityRetained : Bool)
  | trade (price qty : ℕ) (takerSide : Side)
  | bookUpdate (bestBid bestAsk : TouchSide)
  | snapshotLevel (side : Side) (price qty orderCount : ℕ)
  | snapshotAccount (accountId openOrderCount notional : ℕ)
  | snapshotSummary (bestBid bestAsk : TouchSide) (lastTrade : Option ℕ) (levelCount accountCount : ℕ)
  deriving DecidableEq, Repr

/-- The key of an order: ids are unique per account only. -/
abbrev Key := ℕ × ℕ

/-- Commands `decode_command` can return: every field a `u64`, quantities nonzero, and the
price of a `Limit` order nonzero. A cancel-replace price is not checked. -/
def Command.Decodable : Command → Prop
  | .newOrder a o _ p q k _ ts => a < 2 ^ 64 ∧ o < 2 ^ 64 ∧ p < 2 ^ 64 ∧ q < 2 ^ 64 ∧ ts < 2 ^ 64 ∧
      q ≠ 0 ∧ (k = .limit → p ≠ 0)
  | .cancelOrder a o => a < 2 ^ 64 ∧ o < 2 ^ 64
  | .cancelReplace a o p q => a < 2 ^ 64 ∧ o < 2 ^ 64 ∧ p < 2 ^ 64 ∧ q < 2 ^ 64 ∧ q ≠ 0
  | .massCancel a => a < 2 ^ 64
  | .killSwitch _ => True
  | .snapshot => True

instance : DecidablePred Command.Decodable
  | .newOrder a o _ p q k _ ts => inferInstanceAs (Decidable (a < 2 ^ 64 ∧ o < 2 ^ 64 ∧ p < 2 ^ 64 ∧ q < 2 ^ 64 ∧
      ts < 2 ^ 64 ∧ q ≠ 0 ∧ (k = .limit → p ≠ 0)))
  | .cancelOrder a o => inferInstanceAs (Decidable (a < 2 ^ 64 ∧ o < 2 ^ 64))
  | .cancelReplace a o p q =>
    inferInstanceAs (Decidable (a < 2 ^ 64 ∧ o < 2 ^ 64 ∧ p < 2 ^ 64 ∧ q < 2 ^ 64 ∧ q ≠ 0))
  | .massCancel a => inferInstanceAs (Decidable (a < 2 ^ 64))
  | .killSwitch _ => .isTrue trivial
  | .snapshot => .isTrue trivial

/-- Ways the process stops: a failed `expect`, `assert!`, `debug_assert!` or `unreachable!`, an
index or slice out of range, an arithmetic overflow under checked arithmetic, a loop that never
ends. -/
inductive Panic
  | expect (msg : String)
  | assertion (msg : String)
  | debugAssertion (msg : String)
  | unreachable (msg : String)
  | indexOutOfRange
  | overflow
  | diverges
  deriving DecidableEq, Repr

/-- `Option::expect`. -/
def expect {α : Type*} (msg : String) : Option α → Except Panic α
  | some a => .ok a
  | none => .error (.expect msg)

@[simp] theorem expect_some {α : Type*} (msg : String) (a : α) : expect msg (some a) = .ok a := rfl

/-- What `expect` returns was there. -/
theorem expect_ok {α : Type*} {msg : String} {x : Option α} {a : α} (h : expect msg x = .ok a) : x = some a := by
  cases x with
  | none => simp [expect] at h
  | some b => exact congrArg some (Except.ok.inj h)

/-- A build of the program: how cached sums are stored and whether `debug_assert!` runs. -/
structure Profile where
  u64 : Word
  u128 : Word
  debugAssertions : Bool

namespace Profile

/-- Sums read as exact naturals. -/
def exact (debug : Bool) : Profile := ⟨.exact, .exact, debug⟩

/-- `cargo build --release`: sums wrap silently. -/
def release : Profile := ⟨.wrapping 64, .wrapping 128, false⟩

/-- `cargo build`: an overflow panics and `debug_assert!` runs. -/
def dev : Profile := ⟨.checked 64, .checked 128, true⟩

/-- A profile under which no sum panics. -/
structure Total (P : Profile) : Prop where
  u64 : P.u64.Total
  u128 : P.u128.Total

/-- Exact numbers are never out of range. -/
theorem exact_total (debug : Bool) : (exact debug).Total := ⟨Word.exact_total, Word.exact_total⟩

/-- Nor do numbers that wrap around leave it. -/
theorem release_total : release.Total := ⟨Word.wrapping_total 64, Word.wrapping_total 128⟩

/-- Store a `u64` result. -/
def store64 (P : Profile) (x : ℤ) : Except Panic ℕ :=
  match P.u64.val x with
  | some v => .ok v
  | none => .error .overflow

/-- Store a `u128` result. -/
def store128 (P : Profile) (x : ℤ) : Except Panic ℕ :=
  match P.u128.val x with
  | some v => .ok v
  | none => .error .overflow

/-- A value in range is stored. -/
theorem store64_ok {P : Profile} {x : ℤ} {v : ℕ} (h : P.u64.val x = some v) : P.store64 x = .ok v := by
  simp [store64, h]

/-- What was stored was in range. -/
theorem store64_inv {P : Profile} {x : ℤ} {v : ℕ} (h : P.store64 x = .ok v) : P.u64.val x = some v := by
  unfold store64 at h
  split at h
  · next hv => exact hv.trans (congrArg some (Except.ok.inj h))
  · cases h

theorem store128_ok {P : Profile} {x : ℤ} {v : ℕ} (h : P.u128.val x = some v) : P.store128 x = .ok v := by
  simp [store128, h]

theorem store128_inv {P : Profile} {x : ℤ} {v : ℕ} (h : P.store128 x = .ok v) : P.u128.val x = some v := by
  unfold store128 at h
  split at h
  · next hv => exact hv.trans (congrArg some (Except.ok.inj h))
  · cases h

/-- `debug_assert!`. -/
def debugAssert (P : Profile) (cond : Prop) [Decidable cond] (msg : String) : Except Panic Unit :=
  if P.debugAssertions ∧ ¬ cond then .error (.debugAssertion msg) else .ok ()

/-- An assertion that holds where it is compiled in. -/
theorem debugAssert_ok {P : Profile} {cond : Prop} [Decidable cond] {msg : String}
    (h : P.debugAssertions = true → cond) : P.debugAssert cond msg = .ok () := by
  unfold debugAssert
  rw [if_neg]
  rintro ⟨hd, hn⟩
  exact hn (h hd)

end Profile

/-- What the engine expects of a command: new orders have a quantity, and limit orders a price where
`debug_assert!` runs. -/
def Command.Checked (P : Profile) : Command → Prop
  | .newOrder _ _ _ p q k _ _ => q ≠ 0 ∧ (P.debugAssertions = true → k = .limit → p ≠ 0)
  | _ => True

/-- A decoded command meets the conditions of every build. -/
theorem Command.Decodable.checked {P : Profile} {c : Command} (h : c.Decodable) : c.Checked P := by
  cases c with
  | newOrder => exact ⟨h.2.2.2.2.2.1, fun _ => h.2.2.2.2.2.2⟩
  | _ => trivial

end MatchingEngine
