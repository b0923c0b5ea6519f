import MatchingEngine.Main.Priority
import MatchingEngine.Main.Uncrossed
import MatchingEngine.Ref.Fills

/-!
# Orders that look before they act

A FOK order counts the foreign depth it could trade against before it sweeps; a PostOnly
order removes the own orders in its way, one by one, until it meets a foreign one.

* `fok_all_or_nothing`: the count of the read-only walk is what the sweep trades.
* `postonly_never_takes`: which orders go, which stay, and where the new one rests.
-/

namespace MatchingEngine

/-- A queue of side `s` after `o` has joined the back of its level: the orders ahead of it are those that rank at
least as well. -/
def JoinsBack (s : Side) (o : Order) (l l' : List Order) : Prop :=
  ∃ ahead behind, l = ahead ++ behind ∧ l' = ahead ++ o :: behind ∧ (∀ x ∈ ahead, s.better x.price o.price) ∧
    ∀ x ∈ behind, ¬ s.better x.price o.price

namespace Ref

variable {r : Ref} {a : ℕ} {s : Side} {p : ℕ}

theorem WF.rest_joinsBack (h : r.WF) (s : Side) (o : Order) : JoinsBack s o (r.side s) ((r.rest s o).side s) := by
  rw [rest_side, if_pos rfl]
  exact insertBack_split s.better_trans o (h.sorted s)

/-- **Clearing takes out the own prefix and nothing else.** -/
theorem WF.clear_side (h : r.WF) (s' : Side) :
    (r.clearOwn a s p).side s' = (r.side s').filter (fun o => o ∉ r.ownPrefix a s p) := by
  refine h.clear_induct (motive := fun r r' own => r'.side s' = (r.side s').filter (fun o => o ∉ own)) a s p ?_ ?_
  · intro r _ _
    simp
  · intro r o l r' own h hc _ _ ih
    have ho := mem_of_cons hc
    rw [ih, remove_side]
    by_cases hs : s' = s.opposite
    · rw [if_pos hs, hs, List.filter_filter]
      apply List.filter_congr
      intro x hx
      have hkey : x.key = o.key ↔ x = o :=
        ⟨fun hk => key_inj_of_nodup (h.side_keys s.opposite) hx ho hk, fun he => he ▸ rfl⟩
      simp [hkey, Bool.and_comm]
    · rw [if_neg hs]
      apply List.filter_congr
      intro x hx
      have hne : x ≠ o := fun he => hs (h.side_disjoint hx ho (he ▸ rfl))
      simp [hne]

end Ref

namespace Book

/-- The quantity of the opposite orders at crossing prices that are not the account's. -/
def foreignDepth (b : Book) (accountId : ℕ) (side : Side) (price : ℕ) : ℕ :=
  (((b.crossingOrders side price).filter (fun o => o.account ≠ accountId)).map Order.qty).sum

/-- The opposite orders at crossing prices, in priority order. -/
def crossingQueue (b : Book) (side : Side) (price : ℕ) : List Order :=
  (b.ordersOf side.opposite).filter (fun o => side.crosses price o.price)

theorem unlessDuplicate_fresh {b : Book} {a i : ℕ} {body : Except Panic (Book × List Event)}
    (h : b.orderIndex.lookup (a, i) = none) : b.unlessDuplicate a i body = body := by
  unfold unlessDuplicate
  rw [h]
  rfl

end Book

section

variable {P : Profile} {N : ℕ∞} {b : Book} {r : Ref} {a i : ℕ} {s : Side} {p q : ℕ}

theorem Sim.foreignDepth (h : Sim P N b r) (a : ℕ) (s : Side) (p : ℕ) : b.foreignDepth a s p = r.foreignDepth a s p :=
  (((h.crossingOrders s p).filter _).map _).sum_eq.symm

theorem Sim.crossingQueue (h : Sim P N b r) (s : Side) (p : ℕ) : b.crossingQueue s p = r.crossing s p := by
  unfold Book.crossingQueue
  rw [h.wf.crossing_eq_filter, h.ordersOf]

theorem Sim.find_none (h : Sim P N b r) {k : Key} (hk : b.orderIndex.lookup k = none) : r.find k = none := by
  rcases h.lookup k with ⟨-, hf⟩ | ⟨x, n, hl, -⟩
  · exact hf
  · rw [hk] at hl
    simp at hl

/-- A key the state does not hold is on no live node. -/
theorem Sim.key_ne (h : Sim P N b r) {k : Key} (hk : r.find k = none) : ∀ n ∈ b.nodes, n.key ≠ k := by
  intro n hn
  obtain ⟨x, hx⟩ := Book.mem_nodes.1 hn
  exact Ref.find_eq_none.1 hk n.order (r.side_sub_orders _ _ (h.node hx))

end

/-- **FOK is all or nothing, and its precheck agrees with the sweep.** On every reachable book and for every
new order, `D` being the foreign depth: a sweep returns `q - min q D`; `is_fillable` says whether `q ≤ D`; if
not, the order is rejected and the book is the same; if so, the fills reported to the order add up to `q`, the
assertion that nothing remains holds, and nothing rests. -/
theorem fok_all_or_nothing {P : Profile} (hP : P.Total) {cmds : List Command} (hcmds : ∀ c ∈ cmds, c.Decodable)
    {e : Engine} {evss : List (List Event)} (hrun : Engine.new.runFrom P cmds = .ok (e, evss)) {a i : ℕ} (s : Side)
    {p q : ℕ} (hfresh : e.book.orderIndex.lookup (a, i) = none) (hq : 1 ≤ q) (hp : P.debugAssertions = true → p ≠ 0) :
    (∃ b' fills, e.book.sweep P a i s p q = .ok (b', q - min q (e.book.foreignDepth a s p), fills)) ∧
    e.book.isFillable a s p q = .ok (decide (q ≤ e.book.foreignDepth a s p)) ∧
    (¬ q ≤ e.book.foreignDepth a s p →
      e.book.submitFok P a i s p q = .ok (e.book, [.rejected a i .notFullyFillable])) ∧
    (q ≤ e.book.foreignDepth a s p → ∃ b' fills, e.book.sweep P a i s p q = .ok (b', 0, fills) ∧
      e.book.submitFok P a i s p q = .ok (b', fills ++ [.accepted a i 0]) ∧ filledQty (a, i) fills = q ∧
      b'.orderIndex.lookup (a, i) = none ∧ ∀ n ∈ b'.nodes, n.key ≠ (a, i)) := by
  obtain ⟨r, hs⟩ := sim_of_run hP hcmds hrun
  obtain ⟨b', hb', hs'⟩ := hs.sweep a i s p q
  have hb' : e.book.sweep P a i s p q = .ok (b', (r.sweep a i s p q).2.1, (r.sweep a i s p q).2.2) := hb'
  have hleft : (r.sweep a i s p q).2.1 = q - r.foreignDepth a s p := hs.wf.sweep_remaining
  have htaker : filledQty (a, i) (r.sweep a i s p q).2.2 + (r.sweep a i s p q).2.1 = q := hs.wf.sweep_taker
  have hfind : (r.sweep a i s p q).1.find (a, i) = none := hs.wf.sweep_find (hs.find_none hfresh)
  have hcheck := hs.isFillable a s p q
  rw [hs.foreignDepth]
  refine ⟨⟨b', (r.sweep a i s p q).2.2, ?_⟩, hcheck, fun hshort => ?_, fun hdeep => ?_⟩
  · rw [hb', show q - min q (r.foreignDepth a s p) = (r.sweep a i s p q).2.1 by omega]
  · unfold Book.submitFok
    rw [Profile.debugAssert_ok (fun _ => by omega), Profile.debugAssert_ok hp]
    refine (Book.unlessDuplicate_fresh hfresh).trans ?_
    rw [hcheck, decide_eq_false hshort]
    rfl
  · have hzero : (r.sweep a i s p q).2.1 = 0 := by omega
    rw [hzero] at hb' htaker
    refine ⟨b', (r.sweep a i s p q).2.2, hb', ?_, htaker, hs'.lookup_none hfind, hs'.key_ne hfind⟩
    unfold Book.submitFok
    rw [Profile.debugAssert_ok (fun _ => by omega), Profile.debugAssert_ok hp]
    refine (Book.unlessDuplicate_fresh hfresh).trans ?_
    rw [hcheck, decide_eq_true hdeep, hb']
    simp only [bind, Except.bind, if_true, Profile.debugAssert_ok (fun _ => trivial), pure, Except.pure]

/-- An own order stands between two foreign ones: seven of the nine asks count, so six can be filled and eight
cannot. -/
theorem fok_all_or_nothing_around_own :
    ∃ e evss b' fills, Engine.new.runFrom (.exact true)
        [.newOrder 1 1 .sell 100 3 .limit .gtc 0, .newOrder 2 1 .sell 100 2 .limit .gtc 0,
         .newOrder 1 2 .sell 101 4 .limit .gtc 0] = .ok (e, evss) ∧
      e.book.foreignDepth 2 .buy 101 = 7 ∧ e.book.isFillable 2 .buy 101 8 = .ok false ∧
      e.book.submitFok (.exact true) 2 9 .buy 101 8 = .ok (e.book, [.rejected 2 9 .notFullyFillable]) ∧
      e.book.submitFok (.exact true) 2 9 .buy 101 6 = .ok (b', fills ++ [.accepted 2 9 0]) ∧ filledQty (2, 9) fills = 6 := by
  obtain ⟨⟨e, evss⟩, hrun, hfresh, hdepth⟩ := exists_ok_of_decide (x := Engine.new.runFrom (.exact true)
      [.newOrder 1 1 .sell 100 3 .limit .gtc 0, .newOrder 2 1 .sell 100 2 .limit .gtc 0,
       .newOrder 1 2 .sell 101 4 .limit .gtc 0])
    (p := fun v => v.1.book.orderIndex.lookup (2, 9) = none ∧ v.1.book.foreignDepth 2 .buy 101 = 7) (by decide +kernel)
  have hP := Profile.exact_total true
  obtain ⟨-, hcheck, hshort, -⟩ := fok_all_or_nothing hP (by decide) hrun .buy (p := 101) (q := 8) hfresh (by decide)
    (by decide)
  obtain ⟨-, -, -, hdeep⟩ := fok_all_or_nothing hP (by decide) hrun .buy (p := 101) (q := 6) hfresh (by decide)
    (by decide)
  rw [hdepth] at hcheck hshort hdeep
  obtain ⟨b', fills, -, hok, hfilled, -⟩ := hdeep (by decide)
  exact ⟨e, evss, b', fills, hrun, hdepth, hcheck, hshort (by decide), hok, hfilled⟩

/-- **PostOnly never takes foreign liquidity.** On every reachable book and for every new order, with `L` the
opposite orders at crossing prices in priority order. If `L` has a foreign order, the own orders ahead of the
first one are cancelled in that order, the order is rejected, and nothing else changes. If not, the orders of `L`
are cancelled in that order, the order rests whole at the back of its level, and the book is not locked or
crossed. The events hold no fill and no trade, and the last trade price stays. -/
theorem postonly_never_takes {P : Profile} (hP : P.Total) {cmds : List Command} (hcmds : ∀ c ∈ cmds, c.Decodable)
    {e : Engine} {evss : List (List Event)} (hrun : Engine.new.runFrom P cmds = .ok (e, evss)) {a i : ℕ} {s : Side}
    {p q : ℕ} (hfresh : e.book.orderIndex.lookup (a, i) = none) (hq : 1 ≤ q) (hp : P.debugAssertions = true → p ≠ 0)
    {L : List Order} (hL : L = e.book.crossingQueue s p) :
    ((∃ o ∈ L, o.account ≠ a) → ∃ b', e.book.submitPostonly P a i s p q =
        .ok (b', (L.takeWhile (fun o => o.account = a)).map (fun o => .cancelled o.account o.id) ++
          [.rejected a i .wouldCross]) ∧
      (∀ side, b'.ordersOf side =
        (e.book.ordersOf side).filter (fun o => o ∉ L.takeWhile (fun o => o.account = a))) ∧
      b'.lastTrade = e.book.lastTrade) ∧
    ((¬ ∃ o ∈ L, o.account ≠ a) → ∃ b', e.book.submitPostonly P a i s p q =
        .ok (b', L.map (fun o => .cancelled o.account o.id) ++ [.accepted a i q]) ∧
      b'.ordersOf s.opposite = (e.book.ordersOf s.opposite).filter (fun o => o ∉ L) ∧
      JoinsBack s ⟨a, i, p, q⟩ (e.book.ordersOf s) (b'.ordersOf s) ∧
      (∀ n ∈ b'.nodes, ∀ m ∈ b'.nodes, n.side = .buy → m.side = .sell → n.price < m.price) ∧
      b'.lastTrade = e.book.lastTrade) := by
  obtain ⟨r, hs, hu⟩ := uncrossed_of_run hP hcmds hrun
  obtain ⟨b', hb', hs'⟩ := hs.submitPostonly (a := a) (i := i) (s := s) (p := p) (q := q) (by omega) hp
    (Fits.of_total hP _)
  rw [hs.crossingQueue] at hL
  have hfind := hs.find_none hfresh
  have hown : r.ownPrefix a s p = L.takeWhile (fun o => o.account = a) := by rw [hL]; rfl
  have hres : r.submitPostonly a i s p q =
      if ∃ o ∈ L, o.account ≠ a then
        (r.clearOwn a s p, (r.ownPrefix a s p).map (fun o => .cancelled o.account o.id) ++ [.rejected a i .wouldCross])
      else ((r.clearOwn a s p).rest s ⟨a, i, p, q⟩,
        (r.ownPrefix a s p).map (fun o => .cancelled o.account o.id) ++ [.accepted a i q]) := by
    unfold Ref.submitPostonly Ref.unlessDuplicate
    rw [hfind, hL]
    rfl
  refine ⟨fun hforeign => ?_, fun hclear => ?_⟩
  · rw [hres, if_pos hforeign, hown] at hb'
    rw [hres, if_pos hforeign] at hs'
    refine ⟨b', hb', fun side => ?_, ?_⟩
    · rw [hs.ordersOf, hs'.ordersOf, hs.wf.clear_side, hown]
    · rw [hs.lastTrade, hs'.lastTrade]
      exact hs.wf.clear_lastTrade
  · -- all of `L` is the issuer's own
    have hall : L.takeWhile (fun o => o.account = a) = L := by
      rw [List.takeWhile_eq_self_iff]
      intro o ho
      by_contra hne
      exact hclear ⟨o, ho, by simpa using hne⟩
    rw [hall] at hown
    rw [hres, if_neg hclear, hown] at hb'
    rw [hres, if_neg hclear] at hs'
    have hw : (r.clearOwn a s p).WF := hs.wf.clear_wf
    refine ⟨b', hb', ?_, ?_, ?_, ?_⟩
    · rw [hs.ordersOf, hs'.ordersOf, Ref.rest_side_ne _ _ s.opposite_ne, hs.wf.clear_side, hown]
    · rw [hs.ordersOf, hs'.ordersOf]
      have hside : (r.clearOwn a s p).side s = r.side s := by
        rw [hs.wf.clear_side, List.filter_eq_self]
        intro o ho
        rw [hown, hL, decide_eq_true_iff]
        intro hm
        exact s.opposite_ne (hs.wf.side_disjoint ((List.takeWhile_sublist _).subset hm) ho rfl)
      rw [← hside]
      exact hw.rest_joinsBack s _
    · have hu' := (hu.clearOwn hs.wf).rest (o := ⟨a, i, p, q⟩) hw (hs.wf.clear_exhausted (by rw [← hL]; exact hclear))
      intro n hn m hm hns hms
      obtain ⟨x, hx⟩ := Book.mem_nodes.1 hn
      obtain ⟨y, hy⟩ := Book.mem_nodes.1 hm
      exact hs'.bid_lt_ask hu' hx hns hy hms
    · rw [hs.lastTrade, hs'.lastTrade]
      exact (Ref.rest_lastTrade _ _ _).trans hs.wf.clear_lastTrade

/-- Two own asks stand ahead of a foreign one: a bid that reaches it loses both and is rejected, a bid that stops
short of it clears the first and rests. -/
theorem postonly_never_takes_own_ahead :
    ∃ e evss b₁ b₂, Engine.new.runFrom .release
        [.newOrder 1 1 .sell 100 3 .limit .gtc 0, .newOrder 1 2 .sell 101 2 .limit .gtc 0,
         .newOrder 2 1 .sell 101 4 .limit .gtc 0, .newOrder 1 3 .sell 101 6 .limit .gtc 0,
         .newOrder 3 1 .buy 100 1 .limit .ioc 0] = .ok (e, evss) ∧
      e.book.submitPostonly .release 1 9 .buy 101 5 =
        .ok (b₁, [.cancelled 1 1, .cancelled 1 2, .rejected 1 9 .wouldCross]) ∧
      b₁.ordersOf .sell = [⟨2, 1, 101, 4⟩, ⟨1, 3, 101, 6⟩] ∧ b₁.lastTrade = some 100 ∧
      e.book.submitPostonly .release 1 9 .buy 100 5 = .ok (b₂, [.cancelled 1 1, .accepted 1 9 5]) ∧
      b₂.ordersOf .sell = [⟨1, 2, 101, 2⟩, ⟨2, 1, 101, 4⟩, ⟨1, 3, 101, 6⟩] ∧
      JoinsBack .buy ⟨1, 9, 100, 5⟩ (e.book.ordersOf .buy) (b₂.ordersOf .buy) := by
  obtain ⟨⟨e, evss⟩, hrun, hfresh, hsell, htrade⟩ := exists_ok_of_decide (x := Engine.new.runFrom .release
      [.newOrder 1 1 .sell 100 3 .limit .gtc 0, .newOrder 1 2 .sell 101 2 .limit .gtc 0,
       .newOrder 2 1 .sell 101 4 .limit .gtc 0, .newOrder 1 3 .sell 101 6 .limit .gtc 0,
       .newOrder 3 1 .buy 100 1 .limit .ioc 0])
    (p := fun v => v.1.book.orderIndex.lookup (1, 9) = none ∧
      v.1.book.ordersOf .sell = [⟨1, 1, 100, 2⟩, ⟨1, 2, 101, 2⟩, ⟨2, 1, 101, 4⟩, ⟨1, 3, 101, 6⟩] ∧
      v.1.book.lastTrade = some 100) (by decide +kernel)
  have hreach : [⟨1, 1, 100, 2⟩, ⟨1, 2, 101, 2⟩, ⟨2, 1, 101, 4⟩, ⟨1, 3, 101, 6⟩] = e.book.crossingQueue .buy 101 := by
    unfold Book.crossingQueue
    rw [show Side.buy.opposite = .sell from rfl, hsell]
    decide
  have hshort : [⟨1, 1, 100, 2⟩] = e.book.crossingQueue .buy 100 := by
    unfold Book.crossingQueue
    rw [show Side.buy.opposite = .sell from rfl, hsell]
    decide
  obtain ⟨hforeign, -⟩ := postonly_never_takes Profile.release_total (by decide) hrun (q := 5) hfresh (by decide)
    (by decide) hreach
  obtain ⟨-, hclear⟩ := postonly_never_takes Profile.release_total (by decide) hrun (q := 5) hfresh (by decide)
    (by decide) hshort
  obtain ⟨b₁, hb₁, hleft₁, htrade₁⟩ := hforeign (by decide)
  obtain ⟨b₂, hb₂, hleft₂, hjoin, -, -⟩ := hclear (by decide)
  refine ⟨e, evss, b₁, b₂, hrun, hb₁, ?_, htrade₁.trans htrade, hb₂, ?_, hjoin⟩
  · rw [hleft₁, hsell]
    decide
  · rw [show Side.sell = Side.buy.opposite from rfl, hleft₂, show Side.buy.opposite = .sell from rfl, hsell]
    decide

end MatchingEngine
