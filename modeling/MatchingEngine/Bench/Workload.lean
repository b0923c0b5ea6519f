import MatchingEngine.Core.Types
import MatchingEngine.Lib.Run

/-!
# The burst workload

`bench::workload`: what the benchmark sends. New orders rest on five levels a side, cancels take the
oldest order known to rest, and crossing orders are market orders or large limit orders through all the
levels of the other side. The sender draws commands, the reader reports what it was told; both share the
pool of resting orders behind a lock, and either may be next.

* `Traffic`: a stream of such commands; orders are numbered and go round the accounts.
* `Workload.run_traffic`: a run never panics, and what it sends is such a stream.
-/

namespace MatchingEngine

/-- `Mix`: the shares of new orders, cancels and crossing orders. -/
structure Mix where
  newPct : UInt32
  cancelPct : UInt32
  crossPct : UInt32

/-- `Rng`: xorshift64*. -/
structure Rng where
  state : UInt64

namespace Rng

def nextU64 (rng : Rng) : UInt64 × Rng :=
  let x := rng.state
  let x := x ^^^ (x <<< 13)
  let x := x ^^^ (x >>> 7)
  let x := x ^^^ (x <<< 17)
  (x * 0x2545F4914F6CDD1D, ⟨x⟩)

def nextRange (rng : Rng) (n : UInt64) : UInt64 × Rng :=
  let (x, rng) := rng.nextU64
  (x % n, rng)

theorem nextRange_lt (rng : Rng) {n : UInt64} (hn : 0 < n) : (rng.nextRange n).1.toNat < n.toNat := by
  show (rng.nextU64.1 % n).toNat < n.toNat
  rw [UInt64.toNat_mod]
  exact Nat.mod_lt _ (UInt64.lt_iff_toNat_lt.1 hn)

end Rng

/-- `Kind`. -/
inductive Kind
  | new
  | cancel
  | crossMarket
  | crossLimitSweep
  deriving DecidableEq

def kindForRoll (mix : Mix) (roll : UInt32) : Kind :=
  if roll < mix.newPct then .new
  else if roll < mix.newPct + mix.cancelPct then .cancel
  else
    let crossOffset := roll - mix.newPct - mix.cancelPct
    if crossOffset * 2 < mix.crossPct then .crossMarket else .crossLimitSweep

/-- `ACCOUNT_POOL`. -/
def accountPool : ℕ := 256

/-- `BUY_LEVELS`. -/
def buyLevels : List ℕ := [9950, 9960, 9970, 9980, 9990]

/-- `SELL_LEVELS`. -/
def sellLevels : List ℕ := [10010, 10020, 10030, 10040, 10050]

/-- `NEW_ORDER_QTY`. -/
def newOrderQty : ℕ := 5

/-- `SWEEP_QTY`. -/
def sweepQty : ℕ := 300

structure Workload where
  mix : Mix
  nextOrderId : ℕ
  nextAccount : ℕ
  restingPool : List Key
  rng : Rng

namespace Workload

def new (mix : Mix) (seed : UInt64) : Workload := ⟨mix, 1, 0, [], ⟨seed ||| 1⟩⟩

/-- Draw below `n`. -/
def range (w : Workload) (n : UInt64) : UInt64 × Workload :=
  let (x, rng) := w.rng.nextRange n
  (x, { w with rng := rng })

def freshAccount (w : Workload) : ℕ × Workload :=
  (w.nextAccount % accountPool + 1, { w with nextAccount := (w.nextAccount + 1) % 2 ^ 64 })

def freshOrderId (w : Workload) : ℕ × Workload :=
  (w.nextOrderId, { w with nextOrderId := (w.nextOrderId + 1) % 2 ^ 64 })

/-- A new order under the next account and number, with the key its reply will carry. -/
def order (w : Workload) (side : Side) (price qty : ℕ) (kind : OrderKind) (tif : Tif) : (Key × Command) × Workload :=
  let (accountId, w) := w.freshAccount
  let (orderId, w) := w.freshOrderId
  (((accountId, orderId), .newOrder accountId orderId side price qty kind tif 0), w)

/-- `BUY_LEVELS[level]` or `SELL_LEVELS[level]`. -/
def levelPrice (levels : List ℕ) (level : UInt64) : Except Panic ℕ :=
  match levels[level.toNat]? with
  | some price => .ok price
  | none => .error .indexOutOfRange

/-- An order on one of the levels. -/
def newOrderFallback (w : Workload) : Except Panic ((Key × Command) × Workload) := do
  let (sideIdx, w) := w.range 2
  let (levelIdx, w) := w.range 5
  let side : Side := if sideIdx = 0 then .buy else .sell
  let price ← levelPrice (if sideIdx = 0 then buyLevels else sellLevels) levelIdx
  pure (w.order side price newOrderQty .limit .gtc)

/-- A side by the toss of a coin. -/
def coin (w : Workload) : Side × Workload :=
  let (x, w) := w.range 2
  (if x = 0 then .buy else .sell, w)

/-- The worst price of the side that is swept. -/
def sweepPrice : Side → Except Panic ℕ
  | .buy => expect "SELL_LEVELS is non-empty" sellLevels.getLast?
  | .sell => expect "BUY_LEVELS is non-empty" buyLevels.head?

/-- A command of a kind. -/
def commandOf (w : Workload) : Kind → Except Panic ((Key × Command) × Workload)
  -- the same draws as the fallback's
  | .new => w.newOrderFallback
  | .cancel =>
    match w.restingPool with
    | (accountId, orderId) :: restingPool =>
      .ok (((accountId, orderId), .cancelOrder accountId orderId), { w with restingPool := restingPool })
    | [] => w.newOrderFallback
  | .crossMarket =>
    let (side, w) := w.coin
    .ok (w.order side 0 sweepQty .market .ioc)
  | .crossLimitSweep => do
    let (side, w) := w.coin
    let price ← sweepPrice side
    pure (w.order side price sweepQty .limit .gtc)

/-- The next command to send, and the key its reply will carry. -/
def nextCommand (w : Workload) : Except Panic ((Key × Command) × Workload) :=
  let (roll, w) := w.range 100
  w.commandOf (kindForRoll w.mix roll.toUInt32)

/-- What a reply says about the orders that rest. -/
def observe (w : Workload) : Event → Workload
  | .accepted accountId orderId restingQty =>
    if restingQty > 0 then { w with restingPool := w.restingPool ++ [(accountId, orderId)] } else w
  | .cancelled accountId orderId => { w with restingPool := w.restingPool.filter (fun id => id ≠ (accountId, orderId)) }
  | .filled accountId orderId _ _ _ restingQty _ =>
    if restingQty = 0 then { w with restingPool := w.restingPool.filter (fun id => id ≠ (accountId, orderId)) } else w
  | _ => w

end Workload

/-- What the two threads do to the workload. -/
inductive WorkAct
  /-- The sender takes the next command. -/
  | next
  /-- The reader saw a reply. -/
  | observe (event : Event)
  deriving DecidableEq

namespace Workload

def step (w : Workload) : WorkAct → Except Panic (Workload × Option (Key × Command))
  | .next => do
    let (sent, w) ← w.nextCommand
    pure (w, some sent)
  | .observe event => .ok (w.observe event, none)

/-- What the workload sends as its `n`th order, counted from zero: the account and the number follow from `n`, limit
prices stay between the outer levels, and an order that is no limit order is a market order. -/
inductive SendsOrder (n : ℕ) : Command → Prop
  | limit {side : Side} {price qty : ℕ} (hlow : 9950 ≤ price) (hhigh : price ≤ 10050) (hpos : 0 < qty)
    (hqty : qty ≤ 300) : SendsOrder n (.newOrder (n % 256 + 1) (n + 1) side price qty .limit .gtc 0)
  | market {side : Side} : SendsOrder n (.newOrder (n % 256 + 1) (n + 1) side 0 300 .market .ioc 0)

/-- The numbers the next order gets. -/
def At (n : ℕ) (w : Workload) : Prop := w.nextAccount = n ∧ w.nextOrderId = n + 1

end Workload

/-- What is drawn: the next order, under its key, or a cancel of the oldest order of the pool. -/
inductive Workload.Drawn (w : Workload) (n : ℕ) : Key → Command → Workload → Prop
  | order {c : Command} {w' : Workload} (sends : SendsOrder n c) (next : w'.At (n + 1))
    (pool : w'.restingPool = w.restingPool) : Drawn w n (n % 256 + 1, n + 1) c w'
  | cancel {a i : ℕ} {w' : Workload} (next : w'.At n) (pool : w.restingPool = (a, i) :: w'.restingPool) :
    Drawn w n (a, i) (.cancelOrder a i) w'

/-- A stream of commands whose orders are numbered from `n` to `m`; cancels may name any order. -/
inductive Traffic : ℕ → List Command → ℕ → Prop
  | nil {n : ℕ} : Traffic n [] n
  | order {n m : ℕ} {c : Command} {cs : List Command} (sends : Workload.SendsOrder n c) (rest : Traffic (n + 1) cs m) :
    Traffic n (c :: cs) m
  | cancel {n m a i : ℕ} {cs : List Command} (rest : Traffic n cs m) : Traffic n (.cancelOrder a i :: cs) m

/-- How many commands are drawn. -/
def WorkAct.draws (acts : List WorkAct) : ℕ := (acts.filter (fun act => act = .next)).length

namespace Workload

variable {w : Workload} {n : ℕ}

theorem At.new (mix : Mix) (seed : UInt64) : (Workload.new mix seed).At 0 := ⟨rfl, rfl⟩

theorem At.range (h : w.At n) (m : UInt64) : (w.range m).2.At n := h

theorem At.coin (h : w.At n) : w.coin.2.At n := h

theorem At.observe (h : w.At n) (event : Event) : (w.observe event).At n := by
  have hsame : (w.observe event).nextAccount = w.nextAccount ∧ (w.observe event).nextOrderId = w.nextOrderId := by
    unfold Workload.observe
    repeat' split
    all_goals exact ⟨rfl, rfl⟩
  exact ⟨hsame.1.trans h.1, hsame.2.trans h.2⟩

/-- The next order takes the next account and the next number. -/
theorem At.order (h : w.At n) (hn : n + 2 < 2 ^ 64) (side : Side) (price qty : ℕ) (kind : OrderKind) (tif : Tif) :
    ∃ w', w.order side price qty kind tif =
        (((n % 256 + 1, n + 1), .newOrder (n % 256 + 1) (n + 1) side price qty kind tif 0), w') ∧
      w'.At (n + 1) ∧ w'.restingPool = w.restingPool := by
  obtain ⟨haccount, hid⟩ := h
  refine ⟨(w.order side price qty kind tif).2, ?_, ?_, rfl⟩
  · rw [← hid, ← haccount]
    rfl
  · show (w.nextAccount + 1) % 2 ^ 64 = n + 1 ∧ (w.nextOrderId + 1) % 2 ^ 64 = n + 1 + 1
    rw [haccount, hid]
    omega

/-- Five levels, and a draw below five. -/
theorem levelPrice_ok {levels : List ℕ} (hlen : levels.length = 5) (hrange : ∀ p ∈ levels, 9950 ≤ p ∧ p ≤ 10050)
    {level : UInt64} (hlevel : level.toNat < 5) :
    ∃ price, levelPrice levels level = .ok price ∧ 9950 ≤ price ∧ price ≤ 10050 := by
  have hlt : level.toNat < levels.length := by omega
  have hget : levels[level.toNat]? = some levels[level.toNat] := List.getElem?_eq_getElem hlt
  refine ⟨levels[level.toNat], ?_, hrange _ (List.getElem_mem hlt)⟩
  unfold levelPrice
  rw [hget]

theorem At.newOrderFallback (h : w.At n) (hn : n + 2 < 2 ^ 64) :
    ∃ k c w', w.newOrderFallback = .ok ((k, c), w') ∧ Drawn w n k c w' := by
  set w₁ := (w.range 2).2 with hw₁
  have hlevel : (w₁.range 5).1.toNat < 5 := Rng.nextRange_lt w₁.rng (by decide)
  have hlevels : ∃ price, levelPrice (if (w.range 2).1 = 0 then buyLevels else sellLevels) (w₁.range 5).1 = .ok price ∧
      9950 ≤ price ∧ price ≤ 10050 := by
    by_cases hside : (w.range 2).1 = 0
    · rw [if_pos hside]
      exact levelPrice_ok rfl (by decide) hlevel
    · rw [if_neg hside]
      exact levelPrice_ok rfl (by decide) hlevel
  obtain ⟨price, hprice, hlow, hhigh⟩ := hlevels
  set side : Side := if (w.range 2).1 = 0 then .buy else .sell with hside
  obtain ⟨w', horder, hat, hpool⟩ := ((h.range 2).range 5).order hn side price newOrderQty .limit .gtc
  refine ⟨_, _, w', (bind_of_ok hprice).trans (congrArg Except.ok horder), .order ?_ hat hpool⟩
  exact .limit hlow hhigh (by decide) (by decide)

theorem sweepPrice_ok (side : Side) : ∃ price, sweepPrice side = .ok price ∧ 9950 ≤ price ∧ price ≤ 10050 := by
  cases side with
  | buy => exact ⟨10050, rfl, by decide, by decide⟩
  | sell => exact ⟨9950, rfl, by decide, by decide⟩

theorem At.commandOf (h : w.At n) (hn : n + 2 < 2 ^ 64) (kind : Kind) :
    ∃ k c w', w.commandOf kind = .ok ((k, c), w') ∧ Drawn w n k c w' := by
  cases kind with
  | new => exact h.newOrderFallback hn
  | cancel =>
    unfold Workload.commandOf
    cases hpool : w.restingPool with
    | nil => exact h.newOrderFallback hn
    | cons k pool => exact ⟨k, _, { w with restingPool := pool }, rfl, .cancel h hpool⟩
  | crossMarket =>
    obtain ⟨w', horder, hat, hpool⟩ := h.coin.order hn w.coin.1 0 sweepQty .market .ioc
    exact ⟨_, _, w', congrArg Except.ok horder, .order .market hat hpool⟩
  | crossLimitSweep =>
    obtain ⟨price, hprice, hlow, hhigh⟩ := sweepPrice_ok w.coin.1
    obtain ⟨w', horder, hat, hpool⟩ := h.coin.order hn w.coin.1 price sweepQty .limit .gtc
    refine ⟨_, _, w', (bind_of_ok hprice).trans (congrArg Except.ok horder), .order ?_ hat hpool⟩
    exact .limit hlow hhigh (by decide) (by decide)

/-- **A draw never panics.** -/
theorem At.nextCommand (h : w.At n) (hn : n + 2 < 2 ^ 64) :
    ∃ k c w', w.nextCommand = .ok ((k, c), w') ∧ Drawn w n k c w' := by
  obtain ⟨k, c, w', hok, hdrawn⟩ := (h.range 100).commandOf hn (kindForRoll w.mix (w.range 100).1.toUInt32)
  refine ⟨k, c, w', hok, ?_⟩
  cases hdrawn with
  | order sends next pool => exact .order sends next pool
  | cancel next pool => exact .cancel next pool

/-- The commands of a run. -/
def sent (outs : List (Option (Key × Command))) : List Command := (outs.filterMap id).map Prod.snd

/-- **A run never panics**, whatever the reader reports in between, and what it sends is numbered in order. -/
theorem run_traffic (acts : List WorkAct) (h : w.At n) (hn : n + WorkAct.draws acts + 1 < 2 ^ 64) :
    ∃ w' outs m, run Workload.step w acts = .ok (w', outs) ∧ Traffic n (sent outs) m ∧
      (sent outs).length = WorkAct.draws acts := by
  induction acts generalizing w n with
  | nil => exact ⟨w, [], n, rfl, .nil, rfl⟩
  | cons act acts ih =>
    cases act with
    | observe event =>
      have hdraws : WorkAct.draws (.observe event :: acts) = WorkAct.draws acts := by
        unfold WorkAct.draws
        rw [List.filter_cons_of_neg (by simp)]
      rw [hdraws] at hn ⊢
      obtain ⟨w', outs, m, hrun, htraffic, hlen⟩ := ih (h.observe event) hn
      exact ⟨w', none :: outs, m, run_cons_ok rfl hrun, htraffic, hlen⟩
    | next =>
      have hdraws : WorkAct.draws (.next :: acts) = WorkAct.draws acts + 1 := by
        unfold WorkAct.draws
        rw [List.filter_cons_of_pos (by simp), List.length_cons]
      rw [hdraws] at hn ⊢
      obtain ⟨k, c, w₁, hnext, hdrawn⟩ := h.nextCommand (by omega)
      have hstep : w.step .next = .ok (w₁, some (k, c)) := bind_of_ok hnext
      cases hdrawn with
      | order sends hat _ =>
        obtain ⟨w', outs, m, hrun, htraffic, hlen⟩ := ih hat (by omega)
        refine ⟨w', _ :: outs, m, run_cons_ok hstep hrun, .order sends htraffic, ?_⟩
        exact congrArg (· + 1) hlen
      | cancel hat _ =>
        obtain ⟨w', outs, m, hrun, htraffic, hlen⟩ := ih hat (by omega)
        refine ⟨w', _ :: outs, m, run_cons_ok hstep hrun, .cancel htraffic, ?_⟩
        exact congrArg (· + 1) hlen

end Workload

end MatchingEngine
