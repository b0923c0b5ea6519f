import MatchingEngine.Risk.Limits

/-!
# The open-order cap

The gate counts an account's orders before a command that may rest one. The count holds
until the order rests: matching and self-trade prevention only take orders out, and an
amend takes its own order out before it puts it back.

* `System.processCommandBy`: `process_command` with another `rest` in its place.
* `Sim.capped_count`: no command takes an account over the cap.
* `open_order_cap`: whole runs, and every push inside a command.
-/

namespace MatchingEngine

/-- `MAX_OPEN_ORDERS`, the capacity every `AccountEntry` starts with. -/
def maxOpenOrders : ℕ := 50

namespace Book

/-- The shape of `rest`. -/
abbrev Rest := Book → ℕ → ℕ → Side → ℕ → ℕ → Except Panic Book

/-- `rest` with a push that stops at the capacity of the account's slot array instead of growing it. -/
def restWithin (cap : ℕ) (P : Profile) : Rest := fun b accountId orderId side price qty => do
  check (((b.accounts.lookup accountId).getD .default).slots.length < cap) "slots would outgrow its capacity"
  b.rest P accountId orderId side price qty

variable (rest : Rest) (P : Profile)

/-- `submit_gtc`, with `rest` given. -/
def submitGtcBy (b : Book) (accountId orderId : ℕ) (side : Side) (price qty : ℕ) : Except Panic (Book × List Event) := do
  P.debugAssert (qty ≠ 0) "qty is validated nonzero at the gateway"
  P.debugAssert (price ≠ 0) "price is validated nonzero for non-Market orders at the gateway"
  b.unlessDuplicate accountId orderId do
    let (b, remaining, evs) ← b.sweep P accountId orderId side price qty
    let b ← if remaining > 0 then rest b accountId orderId side price remaining else .ok b
    pure (b, evs ++ [.accepted accountId orderId remaining])

/-- `submit_postonly`, with `rest` given. -/
def submitPostonlyBy (b : Book) (accountId orderId : ℕ) (side : Side) (price qty : ℕ) :
    Except Panic (Book × List Event) := do
  P.debugAssert (qty ≠ 0) "qty is validated nonzero at the gateway"
  P.debugAssert (price ≠ 0) "price is validated nonzero at the gateway"
  b.unlessDuplicate accountId orderId do
    let (crosses, b, evs) ← b.stpClearCrossingSelfOrders P accountId side price
    if crosses then pure (b, evs ++ [.rejected accountId orderId .wouldCross])
    else
      let b ← rest b accountId orderId side price qty
      pure (b, evs ++ [.accepted accountId orderId qty])

/-- `modify`, with `rest` given. -/
def modifyBy (b : Book) (accountId orderId newPrice newQty : ℕ) : Except Panic (Book × List Event) :=
  if newQty = 0 then .ok (b, [.rejected accountId orderId .zeroQuantity])
  else match b.orderIndex.lookup (accountId, orderId) with
    | none => .ok (b, [.rejected accountId orderId .unknownOrderId])
    | some slot => do
      let node ← expect "order index points to a live slot" (b.arena.get slot)
      let priceChanged := newPrice ≠ node.price
      let qtyIncreased := newQty > node.qty
      if ¬ priceChanged ∧ ¬ qtyIncreased then
        let b ← b.amendInPlace P slot node newQty
        pure (b, [.replaced accountId orderId newQty true])
      else
        let b ← b.unlink P slot
        let (b, remaining, evs) ← b.sweep P accountId orderId node.side newPrice newQty
        let b ← if remaining > 0 then rest b accountId orderId node.side newPrice remaining else .ok b
        pure (b, .replaced accountId orderId newQty false :: evs)

/-- `dispatch`, with `rest` given: the other commands never rest an order. -/
def dispatchBy (b : Book) : Command → Except Panic (Book × List Event)
  | .newOrder accountId orderId side price qty .limit .gtc _ => b.submitGtcBy rest P accountId orderId side price qty
  | .newOrder accountId orderId side price qty .limit .postOnly _ =>
    b.submitPostonlyBy rest P accountId orderId side price qty
  | .cancelReplace accountId orderId newPrice newQty => b.modifyBy rest P accountId orderId newPrice newQty
  | c => Engine.dispatch P b c

end Book

/-- `process_command`, with `rest` given. -/
def System.processCommandBy (rest : Book.Rest) (P : Profile) (s : System) (cmd : Command) :
    Except Panic (System × List (ℕ × Event)) := do
  let seq := s.engineSeq + 1
  let (risk, rejected) ← s.risk.preApplyCheck P cmd s.engine.book
  match rejected with
  | some rejected => pure (⟨s.engine, risk, seq⟩, [(seq, rejected)])
  | none => do
    let before := s.engine.book.topOfBook
    let (book, evs) ← s.engine.book.dispatchBy rest P cmd
    let after := book.topOfBook
    let evs := if before ≠ after then evs ++ [.bookUpdate after.1 after.2] else evs
    pure (⟨⟨book⟩, risk, seq⟩, evs.map (fun ev => (seq, ev)))

/-- With the book's own `rest` this is `process_command`. -/
theorem Book.dispatchBy_rest (P : Profile) (b : Book) (c : Command) :
    b.dispatchBy (fun b => b.rest P) P c = Engine.dispatch P b c := by
  cases c with
  | newOrder a i s p q k t ts => cases k <;> cases t <;> rfl
  | _ => rfl

/-- Whatever `rest` is given, what matters is how the command is dispatched. -/
theorem System.processCommandBy_eq {rest : Book.Rest} {P : Profile} {s : System} {cmd : Command}
    (h : ∀ risk, s.risk.preApplyCheck P cmd s.engine.book = .ok (risk, none) →
      s.engine.book.dispatchBy rest P cmd = Engine.dispatch P s.engine.book cmd) :
    s.processCommandBy rest P cmd = s.processCommand P cmd := by
  unfold System.processCommandBy System.processCommand
  cases hg : s.risk.preApplyCheck P cmd s.engine.book with
  | error e => rfl
  | ok v =>
    obtain ⟨risk, rejected⟩ := v
    cases rejected with
    | some ev => rfl
    | none =>
      simp only [bind, Except.bind, pure, Except.pure, h risk hg, Engine.apply]
      cases Engine.dispatch P s.engine.book cmd with
      | error e => rfl
      | ok v => rfl

/-! ### Counts -/

namespace Ref

variable {r r' : Ref} {c : Command} {evs : List Event} {a i : ℕ} {s : Side} {o : Order}

/-- One for each order of the account. -/
def held (a : ℕ) (o : Order) : ℕ := if o.account = a then 1 else 0

theorem held_shrinks (a : ℕ) : Shrinks (held a) := fun _ _ _ => le_refl _

/-- The slot array has one entry per order. -/
theorem WF.slots_total (h : r.WF) (a : ℕ) : (r.slots a).length = r.total (held a) := by
  rw [h.slots_length]
  unfold total
  induction r.orders with
  | nil => rfl
  | cons o l ih =>
    rw [List.map_cons, List.sum_cons, ← ih]
    by_cases ha : o.account = a
    · rw [List.filter_cons_of_pos (by simpa using ha), List.length_cons, held, if_pos ha]
      omega
    · rw [List.filter_cons_of_neg (by simpa using ha), held, if_neg ha]
      omega

theorem WF.slots_sweep (h : r.WF) (a i : ℕ) (s : Side) (limit q : ℕ) (b : ℕ) :
    ((r.sweep a i s limit q).1.slots b).length ≤ (r.slots b).length := by
  rw [h.slots_total, h.sweep_wf.slots_total]
  exact h.total_sweep (held_shrinks b) a i s limit q

theorem WF.slots_clear (h : r.WF) (a : ℕ) (s : Side) (limit b : ℕ) :
    ((r.clearOwn a s limit).slots b).length ≤ (r.slots b).length := by
  rw [h.slots_total, h.clear_wf.slots_total]
  exact h.total_clear a s limit

/-- An order that leaves makes room in its account's array. -/
theorem WF.slots_room (h : r.WF) (ho : o ∈ r.side s) :
    ((r.remove s o).slots o.account).length < (r.slots o.account).length := by
  rw [h.slots_total, (h.remove ho).slots_total, h.total_remove ho, held, if_pos rfl]
  omega

/-- **No command takes an account over the cap**, if the order it may bring had room. -/
theorem Did.count_le (hd : Did r c r' evs) (h : r.WF) (h' : r'.WF) {cap : ℕ} (hcap : ∀ a, (r.slots a).length ≤ cap)
    (hroom : ∀ a i s p q k t ts, c = .newOrder a i s p q k t ts → k = .limit → t = .gtc ∨ t = .postOnly →
      (r.slots a).length < cap) (a : ℕ) : (r'.slots a).length ≤ cap := by
  have hbefore := hcap a
  rw [h.slots_total] at hbefore
  rw [h'.slots_total]
  rcases hd.total h (held_shrinks a) with hle | ⟨o, hb, hle⟩
  · omega
  · cases c with
    | newOrder a' i s p q k t ts =>
      obtain ⟨hk, ht, -, hkey, -⟩ := hb
      have hlt := hroom a' i s p q k t ts rfl hk ht
      rw [h.slots_total] at hlt
      by_cases ha : o.account = a
      · obtain rfl : a' = a := (congrArg Prod.fst hkey).symm.trans ha
        rw [held, if_pos ha] at hle
        omega
      · rw [held, if_neg ha] at hle
        omega
    | cancelReplace a' i p q =>
      -- the order it brings is the one it took out
      obtain ⟨⟨s, x, hf, -⟩, hkey, -⟩ := hb
      have hacc : x.account = o.account := by
        have hx := congrArg Prod.fst (find_some hf).2
        exact hx.trans (congrArg Prod.fst hkey).symm
      have hshare : r.share (held a) o.key = held a x := by
        unfold share
        rw [hkey, hf]
      rw [hshare, held, held, hacc] at hle
      omega
    | cancelOrder a' i => exact hb.elim
    | massCancel a' => exact hb.elim
    | killSwitch e => exact hb.elim
    | snapshot => exact hb.elim

end Ref

/-! ### Pushes -/

section

variable {P : Profile} {N : ℕ∞} {b : Book} {r : Ref} {a i : ℕ} {s : Side} {p q cap : ℕ}

theorem Sim.slots_length (h : Sim P N b r) (a : ℕ) :
    ((b.accounts.lookup a).getD .default).slots.length = (r.slots a).length := by
  rw [← h.openOrderCount]
  unfold Book.accountOpenOrderCount
  cases b.accounts.lookup a <;> rfl

/-- A push with room to spare. -/
theorem Sim.restWithin_eq (h : Sim P N b r) (hroom : (r.slots a).length < cap) :
    b.restWithin cap P a i s p q = b.rest P a i s p q := by
  have hlt : ((b.accounts.lookup a).getD .default).slots.length < cap := by
    rw [h.slots_length]
    exact hroom
  unfold Book.restWithin check
  rw [if_pos hlt]
  rfl

theorem Sim.submitGtcBy_eq (h : Sim P N b r) (hroom : (r.slots a).length < cap) :
    b.submitGtcBy (Book.restWithin cap P) P a i s p q = b.submitGtc P a i s p q := by
  obtain ⟨b₁, hb₁, hs₁⟩ := h.sweep a i s p q
  have hlt := lt_of_le_of_lt (h.wf.slots_sweep a i s p q a) hroom
  unfold Book.submitGtcBy Book.submitGtc
  simp only [hb₁, bind, Except.bind, hs₁.restWithin_eq hlt]

theorem Sim.submitPostonlyBy_eq (h : Sim P N b r) (hroom : (r.slots a).length < cap) :
    b.submitPostonlyBy (Book.restWithin cap P) P a i s p q = b.submitPostonly P a i s p q := by
  obtain ⟨b₁, hb₁, hs₁⟩ := h.stpClear a s p
  have hlt := lt_of_le_of_lt (h.wf.slots_clear a s p a) hroom
  unfold Book.submitPostonlyBy Book.submitPostonly
  simp only [hb₁, bind, Except.bind, hs₁.restWithin_eq hlt]

/-- An amend at the cap takes its order out before it puts it back. -/
theorem Sim.modifyBy_eq (h : Sim P N b r) (hcap : (r.slots a).length ≤ cap) :
    b.modifyBy (Book.restWithin cap P) P a i p q = b.modify P a i p q := by
  unfold Book.modifyBy Book.modify
  split
  · rfl
  · rcases h.lookup (a, i) with ⟨hl, -⟩ | ⟨x, n, hl, hn, hkey, -⟩
    · rw [hl]
    · rw [hl]
      obtain ⟨b₁, hb₁, hs₁⟩ := h.unlink hn
      obtain ⟨b₂, hb₂, hs₂⟩ := hs₁.sweep a i n.side p q
      have hown : n.order.account = a := congrArg Prod.fst hkey
      have hroom : ((r.remove n.side n.order).slots a).length < cap := by
        have := h.wf.slots_room (h.node hn)
        rw [hown] at this
        omega
      have hlt := lt_of_le_of_lt (hs₁.wf.slots_sweep a i n.side p q a) hroom
      simp only [hn, expect_some, hb₁, hb₂, bind, Except.bind, hs₂.restWithin_eq hlt]

/-- **Behind the gate every push has room.** -/
theorem Sim.dispatchBy_eq {sys : System} {risk : RiskState} {c : Command} (h : Sim P N sys.engine.book r)
    (hgate : sys.risk.preApplyCheck P c sys.engine.book = .ok (risk, none))
    (hcount : ∀ a, (r.slots a).length ≤ sys.risk.config.maxOpenOrders) (hle : sys.risk.config.maxOpenOrders ≤ cap) :
    sys.engine.book.dispatchBy (Book.restWithin cap P) P c = Engine.dispatch P sys.engine.book c := by
  obtain ⟨-, -, hpass⟩ := RiskState.preApplyCheck_cases hgate
  cases c with
  | newOrder a i s p q k t ts =>
    have hnew := (hpass rfl).2 a i s p q k t ts rfl
    cases k with
    | market => rfl
    | limit =>
      have hroom : t = .gtc ∨ t = .postOnly → (r.slots a).length < cap := by
        intro ht
        have hlt := RiskState.newOrderCheck_count hnew ht
        rw [h.openOrderCount] at hlt
        omega
      cases t with
      | gtc => exact h.submitGtcBy_eq (hroom (Or.inl rfl))
      | ioc => rfl
      | fok => rfl
      | postOnly => exact h.submitPostonlyBy_eq (hroom (Or.inr rfl))
  | cancelReplace a i p q => exact h.modifyBy_eq ((hcount a).trans hle)
  | _ => rfl

end

/-! ### The other writes -/

namespace Book

variable {P : Profile} {b b' : Book} {slot : ℕ} {n : Node} {q : ℕ}

/-- No account's slot array is longer in `b'`. -/
def NoLonger (b b' : Book) : Prop := ∀ a, b'.accountOpenOrderCount a ≤ b.accountOpenOrderCount a

/-- One account's entry is replaced by one that is no longer. -/
theorem noLonger_insert {a : ℕ} {entry : AccountEntry} (entry' : AccountEntry) (he : b.accounts.lookup a = some entry)
    (hle : entry'.slots.length ≤ entry.slots.length) (hb : b'.accounts = b.accounts.insert a entry') :
    b.NoLonger b' := by
  intro c
  unfold accountOpenOrderCount
  rw [hb]
  by_cases hc : c = a
  · rw [hc, Finmap.lookup_insert, he]
    exact hle
  · rw [Finmap.lookup_insert_of_ne _ hc]

theorem unlink_noLonger (h : b.unlink P slot = .ok b') : b.NoLonger b' := by
  unfold unlink at h
  obtain ⟨node, -, h⟩ := exists_of_bind_ok h
  obtain ⟨arena₁, -, h⟩ := exists_of_bind_ok h
  obtain ⟨arena₂, -, h⟩ := exists_of_bind_ok h
  obtain ⟨level, -, h⟩ := exists_of_bind_ok h
  obtain ⟨totalQty, -, h⟩ := exists_of_bind_ok h
  obtain ⟨entry, he, h⟩ := exists_of_bind_ok h
  obtain ⟨removed, -, h⟩ := exists_of_bind_ok h
  obtain ⟨-, -, h⟩ := exists_of_bind_ok h
  obtain ⟨notional, -, h⟩ := exists_of_bind_ok h
  obtain ⟨arena₃, -, h⟩ := exists_of_bind_ok h
  obtain ⟨arena₄, -, h⟩ := exists_of_bind_ok h
  refine noLonger_insert ⟨swapRemove entry.slots node.acctIdx, notional⟩ (expect_ok he) swapRemove_length_le ?_
  rw [← Except.ok.inj h, setMap_accounts]

theorem reduce_noLonger {side : Side} {price fillQty : ℕ} (h : b.reduceRestingQty P slot side price fillQty = .ok b') :
    b.NoLonger b' := by
  unfold reduceRestingQty at h
  obtain ⟨node, -, h⟩ := exists_of_bind_ok h
  obtain ⟨arena, -, h⟩ := exists_of_bind_ok h
  obtain ⟨level, -, h⟩ := exists_of_bind_ok h
  obtain ⟨totalQty, -, h⟩ := exists_of_bind_ok h
  obtain ⟨entry, he, h⟩ := exists_of_bind_ok h
  obtain ⟨notional, -, h⟩ := exists_of_bind_ok h
  refine noLonger_insert { entry with notional } (expect_ok he) (le_refl _) ?_
  rw [← Except.ok.inj h, setMap_accounts]

theorem amend_noLonger (h : b.amendInPlace P slot n q = .ok b') : b.NoLonger b' := by
  unfold amendInPlace at h
  obtain ⟨arena, -, h⟩ := exists_of_bind_ok h
  obtain ⟨level, -, h⟩ := exists_of_bind_ok h
  obtain ⟨totalQty₀, -, h⟩ := exists_of_bind_ok h
  obtain ⟨totalQty, -, h⟩ := exists_of_bind_ok h
  obtain ⟨entry, he, h⟩ := exists_of_bind_ok h
  obtain ⟨notional₀, -, h⟩ := exists_of_bind_ok h
  obtain ⟨notional, -, h⟩ := exists_of_bind_ok h
  refine noLonger_insert { entry with notional } (expect_ok he) (le_refl _) ?_
  rw [← Except.ok.inj h, setMap_accounts]

end Book

/-- **The open-order cap holds in every reachable state.** After every run through the gate no account has more
resting orders, or a longer slot array, than the configured cap. With a cap within the reserved capacity, every
further command does the same with a `rest` that stops at that capacity instead of growing the array: no push inside
a command goes beyond it. Nothing but `rest` makes an array longer. -/
theorem open_order_cap {P : Profile} (hP : P.Total) (config : RiskConfig) {cmds : List Command}
    (hcmds : ∀ c ∈ cmds, c.Decodable) {s : System} {evss : List (List (ℕ × Event))}
    (hrun : (System.new config).runFrom P cmds = .ok (s, evss)) :
    (∀ a, (s.engine.book.nodes.filter (fun n => n.account = a)).length ≤ config.maxOpenOrders ∧
      s.engine.book.accountOpenOrderCount a ≤ config.maxOpenOrders) ∧
    (config.maxOpenOrders ≤ maxOpenOrders → ∀ c,
      s.processCommandBy (Book.restWithin maxOpenOrders P) P c = s.processCommand P c) ∧
    (∀ (b b' : Book) slot, b.unlink P slot = .ok b' → b.NoLonger b') ∧
    (∀ (b b' : Book) slot side p q, b.reduceRestingQty P slot side p q = .ok b' → b.NoLonger b') ∧
    ∀ (b b' : Book) slot n q, b.amendInPlace P slot n q = .ok b' → b.NoLonger b' := by
  obtain ⟨hcfg, r, hs, hcount⟩ := System.run_ref hP (C := fun _ _ => True)
    (fun r => ∀ a, (r.slots a).length ≤ config.maxOpenOrders)
    (by
      intro s risk r c hcfg hs hgate hc _ hcount
      obtain ⟨-, -, hpass⟩ := RiskState.preApplyCheck_cases hgate
      have hd := r.did P c
      refine hd.count_le hs.wf (hd.wf hs.wf (hc.checked (P := P))) hcount ?_
      rintro a i side p q k t ts rfl rfl ht
      have hlt := RiskState.newOrderCheck_count ((hpass rfl).2 a i side p q .limit t ts rfl) ht
      rw [hs.openOrderCount, hcfg] at hlt
      exact hlt)
    (fun a => Nat.zero_le _) ((along_of_forall (Q := fun _ => True) (fun _ _ => trivial)).and_forall hcmds) hrun
  refine ⟨fun a => ⟨?_, ?_⟩, fun hle c => ?_, fun b b' slot h => Book.unlink_noLonger h,
    fun b b' slot side p q h => Book.reduce_noLonger h, fun b b' slot n q h => Book.amend_noLonger h⟩
  · have hlen := (hs.nodes_account a).length_eq
    rw [List.length_map, ← hs.wf.slots_length] at hlen
    rw [hlen]
    exact hcount a
  · rw [hs.openOrderCount]
    exact hcount a
  · apply System.processCommandBy_eq
    intro risk hgate
    exact hs.dispatchBy_eq hgate (by rw [hcfg]; exact hcount) (by rw [hcfg]; exact hle)

/-- With a cap of two: a third order is turned away, an amend at the cap goes through, and the array stays within its
capacity. -/
theorem open_order_cap_amend :
    ∃ s evss, (System.new ⟨2, 100000000, 10, by decide, by decide, by decide⟩).runFrom .release
        [.newOrder 1 1 .sell 100 5 .limit .gtc 0, .newOrder 1 2 .sell 101 4 .limit .gtc 0,
         .newOrder 1 3 .sell 102 4 .limit .gtc 0] = .ok (s, evss) ∧
      evss.getLast? = some [(3, .rejected 1 3 .maxOpenOrders)] ∧ s.engine.book.accountOpenOrderCount 1 ≤ 2 ∧
      s.processCommandBy (Book.restWithin maxOpenOrders .release) .release (.cancelReplace 1 1 101 6) =
        s.processCommand .release (.cancelReplace 1 1 101 6) := by
  obtain ⟨⟨s, evss⟩, hrun, hlast⟩ := exists_ok_of_decide
    (x := (System.new ⟨2, 100000000, 10, by decide, by decide, by decide⟩).runFrom .release
      [.newOrder 1 1 .sell 100 5 .limit .gtc 0, .newOrder 1 2 .sell 101 4 .limit .gtc 0,
       .newOrder 1 3 .sell 102 4 .limit .gtc 0])
    (p := fun v => v.2.getLast? = some [(3, .rejected 1 3 .maxOpenOrders)]) (by decide +kernel)
  obtain ⟨hcount, hpush, -⟩ := open_order_cap Profile.release_total _ (by decide) hrun
  exact ⟨s, evss, hrun, hlast, (hcount 1).2, hpush (by decide) _⟩

end MatchingEngine
