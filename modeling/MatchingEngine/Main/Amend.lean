import MatchingEngine.Main.Precheck

/-!
# Amends and queue position

`modify` has three cases: less or the same quantity at the same price is written into the
node where it stands; more quantity at the same price takes the order out and puts it back
behind its level; a new price is a cancel and a new order in one.

* `Sim.amend_book`: the in-place case, field by field.
* `Sim.modify_requeue`: the other two, down to the sweep.
* `amend_semantics`: all three, on every reachable book.
-/

namespace MatchingEngine

namespace Book

/-- The book with one order's quantity replaced, its level's total and its account's notional with it. -/
def amended (b : Book) (slot : ℕ) (n : Node) (q : ℕ) (level : Level) (entry : AccountEntry) (totalQty notional : ℕ) :
    Book :=
  { b with
    arena := { b.arena with slots := b.arena.slots.set slot (some { n with qty := q }) },
    accounts := b.accounts.insert n.account { entry with notional } }.setMap n.side
      ((b.map n.side).insert n.price { level with totalQty })

theorem amendInPlace_ok {P : Profile} {b b' : Book} {slot : ℕ} {n : Node} {q : ℕ} (hn : b.arena.get slot = some n)
    (h : b.amendInPlace P slot n q = .ok b') :
    ∃ level entry totalQty notional, (b.map n.side)[n.price]? = some level ∧ b.accounts.lookup n.account = some entry ∧
      b' = b.amended slot n q level entry totalQty notional := by
  unfold amendInPlace at h
  have hset : b.arena.update slot "just read above" (fun n => { n with qty := q }) =
      .ok { b.arena with slots := b.arena.slots.set slot (some { n with qty := q }) } := by
    simp only [Arena.update, hn, expect_some, bind, Except.bind, pure, Except.pure]
  simp only [hset, bind, Except.bind, pure, Except.pure] at h
  -- every later step either panics or goes on
  cases hl : (b.map n.side)[n.price]? with
  | none => simp [hl, expect] at h
  | some level =>
    cases he : b.accounts.lookup n.account with
    | none =>
      simp only [hl, he, expect] at h
      repeat' split at h
      all_goals simp at h
    | some entry =>
      simp only [hl, he, expect_some] at h
      repeat' split at h
      all_goals first
        | exact ⟨level, entry, _, _, rfl, rfl, (Except.ok.inj h).symm⟩
        | simp at h

end Book

namespace Ref

variable {r : Ref} {s : Side} {o : Order} {q : ℕ}

/-- Nothing crosses a price at which an order rests, with or without that order. -/
theorem Uncrossed.crossing_remove (hu : r.Uncrossed) (ho : o ∈ r.side s) : (r.remove s o).crossing s o.price = [] := by
  rw [crossing_eq_nil]
  intro x l hc
  rw [remove_side_ne _ _ s.opposite_ne] at hc
  exact hu s o ho x (mem_of_cons hc)

/-- **More quantity at the same price**: the sweep finds nothing, and the order rests behind its level. -/
theorem WF.modify_more (h : r.WF) (hu : r.Uncrossed) (ho : o ∈ r.side s) (hq : o.qty < q) :
    r.modify o.account o.id o.price q =
      ((r.remove s o).rest s { o with qty := q }, [.replaced o.account o.id q false]) := by
  have hfind : r.find (o.account, o.id) = some (s, o) := h.find_mem ho
  have hmore : ¬ (True ∧ q ≤ o.qty) := fun hh => by omega
  unfold modify
  rw [if_neg (by omega), hfind]
  simp only
  rw [if_neg hmore, sweep_nil (hu.crossing_remove ho)]
  simp only [Ref.restRemainder, if_pos (show q > 0 by omega)]

end Ref

namespace Sim

variable {P : Profile} {N : ℕ∞} {b : Book} {r : Ref} {slot : ℕ} {n : Node} {p q : ℕ}

/-- **The in-place amend**, field by field. -/
theorem amend_book (h : Sim P N b r) (hn : b.arena.get slot = some n) (hq : 1 ≤ q) (hle : q ≤ n.qty) :
    ∃ level entry totalQty notional, (b.map n.side)[n.price]? = some level ∧ b.accounts.lookup n.account = some entry ∧
      b.modify P n.account n.id n.price q =
        .ok (b.amended slot n q level entry totalQty notional, [.replaced n.account n.id q true]) ∧
      Sim P N (b.amended slot n q level entry totalQty notional) (r.setQty n.side n.key q) := by
  obtain ⟨b', hb', hs'⟩ := h.amend hn (by omega) hle
  obtain ⟨level, entry, totalQty, notional, hl, he, rfl⟩ := Book.amendInPlace_ok hn hb'
  refine ⟨level, entry, totalQty, notional, hl, he, ?_, hs'⟩
  have hkeep : ¬ n.price ≠ n.price ∧ ¬ q > n.qty := ⟨by simp, by omega⟩
  unfold Book.modify
  rw [if_neg (by omega), h.index hn]
  simp only [hn, expect_some, if_pos hkeep, hb', bind, Except.bind, pure, Except.pure]

/-- **An amend that loses its place** goes out, through the book, and back. -/
theorem modify_requeue (h : Sim P N b r) (hn : b.arena.get slot = some n) (hq : 1 ≤ q)
    (hlose : ¬ (p = n.price ∧ q ≤ n.qty)) :
    b.modify P n.account n.id p q = (do
      let b ← b.unlink P slot
      let (b, remaining, evs) ← b.sweep P n.account n.id n.side p q
      let b ← if remaining > 0 then b.rest P n.account n.id n.side p remaining else .ok b
      pure (b, .replaced n.account n.id q false :: evs)) := by
  have hcond : ¬ (¬ p ≠ n.price ∧ ¬ q > n.qty) := fun hh => hlose ⟨by simpa using hh.1, by omega⟩
  unfold Book.modify
  rw [if_neg (by omega), h.index hn]
  simp only [hn, expect_some, if_neg hcond, bind, Except.bind]

/-- **A repricing is a cancel and a new order**: the same book, and the same events between the two answers. -/
theorem modify_reprice (h : Sim P N b r) (hn : b.arena.get slot = some n) (hq : 1 ≤ q) (hp : p ≠ n.price)
    (hz : P.debugAssertions = true → p ≠ 0) (hf : Fits P N (r.modify n.account n.id p q).1) :
    ∃ b₁ b' evs remaining, b.cancel P n.account n.id = .ok (b₁, [.cancelled n.account n.id]) ∧
      b₁.submitGtc P n.account n.id n.side p q = .ok (b', evs ++ [.accepted n.account n.id remaining]) ∧
      b.modify P n.account n.id p q = .ok (b', .replaced n.account n.id q false :: evs) := by
  obtain ⟨b', hb', -⟩ := h.modify hf
  obtain ⟨b₁, hb₁, hs₁⟩ := h.unlink hn
  obtain ⟨b₂, hb₂, -⟩ := hs₁.sweep n.account n.id n.side p q
  have hcancel : b.cancel P n.account n.id = .ok (b₁, [.cancelled n.account n.id]) := by
    unfold Book.cancel
    rw [h.index hn]
    simp only [hb₁, bind, Except.bind, pure, Except.pure]
  -- the key is free again, so the new order passes the duplicate check
  have hfree : b₁.orderIndex.lookup (n.account, n.id) = none :=
    hs₁.lookup_none (h.wf.find_remove (h.wf.find_mem (h.node hn)))
  have hsubmit : b₁.submitGtc P n.account n.id n.side p q = (do
      let (b, remaining, evs) ← b₁.sweep P n.account n.id n.side p q
      let b ← if remaining > 0 then b.rest P n.account n.id n.side p remaining else .ok b
      pure (b, evs ++ [.accepted n.account n.id remaining])) := by
    unfold Book.submitGtc
    rw [Profile.debugAssert_ok (fun _ => by omega), Profile.debugAssert_ok hz]
    exact Book.unlessDuplicate_fresh hfree
  have hlose : ¬ (p = n.price ∧ q ≤ n.qty) := fun hh => hp hh.1
  rw [h.modify_requeue hn hq hlose] at hb' ⊢
  simp only [hb₁, hb₂, bind, Except.bind, pure, Except.pure] at hb' hsubmit ⊢
  by_cases hrem : ((r.remove n.side n.order).sweep n.account n.id n.side p q).2.1 > 0
  · simp only [if_pos hrem] at hb' hsubmit ⊢
    cases hrest : b₂.rest P n.account n.id n.side p ((r.remove n.side n.order).sweep n.account n.id n.side p q).2.1 with
    | error e => simp [hrest] at hb'
    | ok b₃ =>
      rw [hrest] at hsubmit
      exact ⟨b₁, b₃, _, _, hcancel, hsubmit, rfl⟩
  · simp only [if_neg hrem] at hsubmit ⊢
    exact ⟨b₁, b₂, _, _, hcancel, hsubmit, rfl⟩

end Sim

/-- **Amend semantics and queue position.** On every reachable book, for every resting order and every new price
and nonzero quantity. Less or the same quantity at the same price: the only event says that priority is retained,
and the book is the same but for the order's quantity, its level's total and its account's notional. More
quantity at the same price: the only event says that priority is lost; the order is last in its level, the others
are as they were. A new price: the book is that of a cancel and a new order, with the cancellation replaced by the
answer to the amend and the acceptance dropped. -/
theorem amend_semantics {P : Profile} (hP : P.Total) {cmds : List Command} (hcmds : ∀ c ∈ cmds, c.Decodable)
    {e : Engine} {evss : List (List Event)} (hrun : Engine.new.runFrom P cmds = .ok (e, evss)) {slot : ℕ} {n : Node}
    (hn : e.book.arena.get slot = some n) {p q : ℕ} (hq : 1 ≤ q) :
    (p = n.price → q ≤ n.qty → ∃ level entry totalQty notional b',
      (e.book.map n.side)[n.price]? = some level ∧ e.book.accounts.lookup n.account = some entry ∧
      e.book.modify P n.account n.id p q = .ok (b', [.replaced n.account n.id q true]) ∧
      b' = e.book.amended slot n q level entry totalQty notional ∧
      P.u64.val (b'.restingQty n.side n.price : ℕ) = some totalQty ∧
      P.u128.val (b'.grossNotional n.account : ℕ) = some notional ∧
      ∀ side, b'.ordersOf side =
        (e.book.ordersOf side).map (fun o => if o.key = n.key then { o with qty := q } else o)) ∧
    (p = n.price → n.qty < q → ∃ b',
      e.book.modify P n.account n.id p q = .ok (b', [.replaced n.account n.id q false]) ∧
      JoinsBack n.side ⟨n.account, n.id, p, q⟩ ((e.book.ordersOf n.side).filter (fun o => o.key ≠ n.key))
        (b'.ordersOf n.side) ∧
      b'.ordersOf n.side.opposite = e.book.ordersOf n.side.opposite ∧ b'.lastTrade = e.book.lastTrade) ∧
    (p ≠ n.price → (P.debugAssertions = true → p ≠ 0) → ∃ b₁ b' evs remaining,
      e.book.cancel P n.account n.id = .ok (b₁, [.cancelled n.account n.id]) ∧
      b₁.submitGtc P n.account n.id n.side p q = .ok (b', evs ++ [.accepted n.account n.id remaining]) ∧
      e.book.modify P n.account n.id p q = .ok (b', .replaced n.account n.id q false :: evs)) := by
  obtain ⟨r, hs, hu⟩ := uncrossed_of_run hP hcmds hrun
  have ho := hs.node hn
  refine ⟨?_, ?_, fun hp hz => hs.modify_reprice hn hq hp hz (Fits.of_total hP _)⟩
  · rintro rfl hle
    obtain ⟨level, entry, totalQty, notional, hl, he, hb', hs'⟩ := hs.amend_book hn hq hle
    refine ⟨level, entry, totalQty, notional, _, hl, he, hb', rfl, ?_, ?_, fun side => ?_⟩
    · rw [hs'.restingQty]
      refine (hs'.totalQty (l := { level with totalQty }) ?_)
      cases hside : n.side with
      | buy => simp [Book.amended, Book.setMap, Book.map, hside]
      | sell => simp [Book.amended, Book.setMap, Book.map, hside]
    · rw [hs'.grossNotional, hs'.notional]
      cases hside : n.side with
      | buy => simp [Book.amended, Book.setMap, Book.accountNotional, hside]
      | sell => simp [Book.amended, Book.setMap, Book.accountNotional, hside]
    · rw [hs.ordersOf, hs'.ordersOf, Ref.setQty_side]
      by_cases hside : side = n.side
      · rw [if_pos hside, hside]
      · rw [if_neg hside]
        symm
        refine (List.map_congr_left (fun o ho' => ?_)).trans (List.map_id _)
        have hne : o.key ≠ n.key := fun hk => hside (hs.wf.side_disjoint ho' ho hk)
        rw [if_neg hne]
        rfl
  · rintro rfl hmore
    obtain ⟨b', hb', hs'⟩ := hs.modify (a := n.account) (i := n.id) (p := n.price) (q := q) (Fits.of_total hP _)
    have hres : r.modify n.account n.id n.price q = _ := hs.wf.modify_more hu ho hmore
    rw [hres] at hb' hs'
    refine ⟨b', hb', ?_, ?_, ?_⟩
    · have hjoin := (hs.wf.remove ho).rest_joinsBack n.side { n.order with qty := q }
      rw [Ref.remove_side_self] at hjoin
      rw [hs.ordersOf, hs'.ordersOf]
      exact hjoin
    · rw [hs.ordersOf, hs'.ordersOf, Ref.rest_side_ne _ _ n.side.opposite_ne, Ref.remove_side_ne _ _ n.side.opposite_ne]
    · rw [hs.lastTrade, hs'.lastTrade, Ref.rest_lastTrade, Ref.remove_lastTrade]

/-- The first of two asks at one price, with a bid below: amended down it stays first, amended up it goes last, and
repriced to the bid it trades as a new order would. -/
theorem amend_semantics_first_of_two :
    ∃ e evss b₁ b₂ b₃ b₄ evs remaining, Engine.new.runFrom .release
        [.newOrder 1 1 .sell 100 5 .limit .gtc 0, .newOrder 2 1 .sell 100 3 .limit .gtc 0,
         .newOrder 3 1 .buy 99 4 .limit .gtc 0] = .ok (e, evss) ∧
      e.book.modify .release 1 1 100 2 = .ok (b₁, [.replaced 1 1 2 true]) ∧
      b₁.ordersOf .sell = [⟨1, 1, 100, 2⟩, ⟨2, 1, 100, 3⟩] ∧
      e.book.modify .release 1 1 100 7 = .ok (b₂, [.replaced 1 1 7 false]) ∧
      JoinsBack .sell ⟨1, 1, 100, 7⟩ [⟨2, 1, 100, 3⟩] (b₂.ordersOf .sell) ∧
      e.book.cancel .release 1 1 = .ok (b₃, [.cancelled 1 1]) ∧
      b₃.submitGtc .release 1 1 .sell 99 5 = .ok (b₄, evs ++ [.accepted 1 1 remaining]) ∧
      e.book.modify .release 1 1 99 5 = .ok (b₄, .replaced 1 1 5 false :: evs) := by
  obtain ⟨⟨e, evss⟩, hrun, hn, hsell⟩ := exists_ok_of_decide (x := Engine.new.runFrom .release
      [.newOrder 1 1 .sell 100 5 .limit .gtc 0, .newOrder 2 1 .sell 100 3 .limit .gtc 0,
       .newOrder 3 1 .buy 99 4 .limit .gtc 0])
    (p := fun v => v.1.book.arena.get 0 = some ⟨1, 1, 100, 5, .sell, none, some 1, 0⟩ ∧
      v.1.book.ordersOf .sell = [⟨1, 1, 100, 5⟩, ⟨2, 1, 100, 3⟩]) (by decide +kernel)
  have hP := Profile.release_total
  obtain ⟨-, -, -, -, b₁, -, -, hb₁, -, -, -, hleft⟩ :=
    (amend_semantics hP (by decide) hrun hn (p := 100) (q := 2) (by decide)).1 rfl (by decide)
  obtain ⟨b₂, hb₂, hjoin, -⟩ :=
    (amend_semantics hP (by decide) hrun hn (p := 100) (q := 7) (by decide)).2.1 rfl (by decide)
  obtain ⟨b₃, b₄, evs, remaining, hcancel, hsubmit, hmodify⟩ :=
    (amend_semantics hP (by decide) hrun hn (p := 99) (q := 5) (by decide)).2.2 (by decide) (by decide)
  simp only [hsell] at hjoin
  refine ⟨e, evss, b₁, b₂, b₃, b₄, evs, remaining, hrun, hb₁, ?_, hb₂, hjoin, hcancel, hsubmit, hmodify⟩
  rw [hleft, hsell]
  decide

end MatchingEngine
