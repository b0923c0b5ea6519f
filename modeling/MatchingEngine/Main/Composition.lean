import MatchingEngine.Main.Discard
import MatchingEngine.Ref.Fills

/-!
# How orders compose

Two ways to say the same thing. An amend that loses its priority is a cancel and a new order
(`amend_is_cancel_then_new`). An order that does not rest can be sent in two pieces, one behind the other
(`split_order_matches_alike`). In both cases the engines end in books that stand for one state, and
whatever is sent next they emit the same.

* `Ref.Matched`: two sweeps that do the same to the book and to the other accounts.
* `Ref.WF.sweep_anyId`: the aggressor's order id is only reported.
* `Ref.WF.sweep_add`: two sweeps in a row are one.
-/

namespace MatchingEngine

namespace Ref

variable {r : Ref} {a i j m limit q₁ q₂ q : ℕ} {s : Side} {o : Order} {l : List Order}

/-- The same state, the same quantity left, and the same fills for every other account. -/
structure Matched (a : ℕ) (x y : Ref × ℕ × List Event) : Prop where
  state : x.1 = y.1
  left : x.2.1 = y.2.1
  fills : ∀ k : Key, k.1 ≠ a → filledQty k x.2.2 = filledQty k y.2.2

theorem Matched.of_eq {x y : Ref × ℕ × List Event} (h : x = y) : Matched a x y := by
  subst h
  exact ⟨rfl, rfl, fun _ _ => rfl⟩

/-- **The aggressor's order id is only reported.** -/
theorem WF.sweep_anyId (h : r.WF) (a i j : ℕ) (s : Side) (limit q : ℕ) :
    Matched a (r.sweep a j s limit q) (r.sweep a i s limit q) := by
  refine h.sweep_induct (motive := fun r q res => Matched a (r.sweep a j s limit q) res) a i s limit ?_ ?_ ?_ ?_ q
  · rintro r q - (rfl | hnil)
    · exact .of_eq sweep_zero
    · exact .of_eq (sweep_nil hnil)
  · intro r q o l r' q' evs h hc hx hq ha ih
    rw [sweep_own h hc hx hq ha]
    refine ⟨ih.state, ih.left, fun k hk => ?_⟩
    have hfills := ih.fills k hk
    dsimp only at hfills ⊢
    rw [filledQty_cons, filledQty_cons, hfills]
  · intro r q o l r' q' evs h hc hx hq ha hle ih
    rw [sweep_fill h hc hx hq ha hle]
    refine ⟨ih.state, ih.left, fun k hk => ?_⟩
    have hfills := ih.fills k hk
    dsimp only at hfills ⊢
    rw [filledQty_append, filledQty_append, hfills, filledQty_maker hk, filledQty_maker hk]
  · intro r q o l h hc hx hq ha hlt
    rw [sweep_part hc hx hq ha hlt]
    refine ⟨rfl, rfl, fun k hk => ?_⟩
    dsimp only
    rw [filledQty_maker hk, filledQty_maker hk]

/-- A quantity set twice. -/
theorem setQty_setQty (r : Ref) (s : Side) (k : Key) (x y : ℕ) (t t' : Option ℕ) :
    ({ Ref.setQty { r.setQty s k x with lastTrade := t } s k y with lastTrade := t' } : Ref) =
      { r.setQty s k y with lastTrade := t' } := by
  refine Ref.ext (fun s' => ?_) (fun a => ?_) rfl
  · simp only [withTrade_side, setQty_side]
    split
    · rw [if_pos trivial, List.map_map]
      refine List.map_congr_left fun o _ => ?_
      by_cases hk : o.key = k
      · have hkey : Order.key { o with qty := x } = k := hk
        simp [hk, hkey]
      · simp [hk]
    · rfl
  · simp only [setQty_slots]

theorem filter_setQty (l : List Order) (k : Key) (x : ℕ) :
    (l.map (fun o => if o.key = k then { o with qty := x } else o)).filter (fun o => o.key ≠ k) =
      l.filter (fun o => o.key ≠ k) := by
  induction l with
  | nil => rfl
  | cons o l ih =>
    rw [List.map_cons]
    by_cases hk : o.key = k
    · have hkey : Order.key { o with qty := x } = k := hk
      rw [if_pos hk, List.filter_cons_of_neg (by simp [hkey]), List.filter_cons_of_neg (by simp [hk]), ih]
    · rw [if_neg hk, List.filter_cons_of_pos (by simp [hk]), List.filter_cons_of_pos (by simp [hk]), ih]

/-- An order whose quantity was set leaves all the same. -/
theorem remove_setQty (r : Ref) (s : Side) (o : Order) (x : ℕ) (t t' : Option ℕ) :
    ({ Ref.remove { r.setQty s o.key x with lastTrade := t } s { o with qty := x } with lastTrade := t' } : Ref) =
      { r.remove s o with lastTrade := t' } := by
  refine Ref.ext (fun s' => ?_) (fun a => ?_) rfl
  · simp only [withTrade_side, setQty_side, remove_side]
    split
    · rw [if_pos trivial]
      exact filter_setQty (r.side s) o.key x
    · rfl
  · show (Ref.remove { r.setQty s o.key x with lastTrade := t } s { o with qty := x }).slots a = (r.remove s o).slots a
    simp only [remove_slots, setQty_slots]

/-- **Two sweeps in a row are one** for the sum of their quantities. -/
theorem WF.sweep_add (h : r.WF) (a i j m : ℕ) (s : Side) (limit q₁ q₂ : ℕ) :
    Matched a (r.sweep a m s limit (q₁ + q₂))
      (((r.sweep a i s limit q₁).1.sweep a j s limit q₂).1,
        (r.sweep a i s limit q₁).2.1 + ((r.sweep a i s limit q₁).1.sweep a j s limit q₂).2.1,
        (r.sweep a i s limit q₁).2.2 ++ ((r.sweep a i s limit q₁).1.sweep a j s limit q₂).2.2) := by
  -- along the first sweep; where it stops inside an order, the second one goes on from there
  refine h.sweep_induct (motive := fun r q₁ res => Matched a (r.sweep a m s limit (q₁ + q₂))
    ((res.1.sweep a j s limit q₂).1, res.2.1 + (res.1.sweep a j s limit q₂).2.1,
      res.2.2 ++ (res.1.sweep a j s limit q₂).2.2)) a i s limit ?_ ?_ ?_ ?_ q₁
  · rintro r q h (rfl | hnil)
    · rw [Nat.zero_add]
      have hid := h.sweep_anyId a j m s limit q₂
      exact ⟨hid.state, by simpa using hid.left, by simpa using hid.fills⟩
    · rw [sweep_nil hnil, sweep_nil hnil]
      exact .of_eq rfl
  · intro r q o l r' q' evs h hc hx hq ha ih
    rw [sweep_own h hc hx (by omega) ha]
    refine ⟨ih.state, ih.left, fun k hk => ?_⟩
    have hfills := ih.fills k hk
    dsimp only at hfills ⊢
    rw [List.cons_append, filledQty_cons, filledQty_cons, hfills]
  · intro r q o l r' q' evs h hc hx hq ha hle ih
    rw [sweep_fill h hc hx (by omega) ha (by omega), Nat.sub_add_comm hle]
    refine ⟨ih.state, ih.left, fun k hk => ?_⟩
    have hfills := ih.fills k hk
    dsimp only at hfills ⊢
    rw [List.append_assoc, filledQty_append, filledQty_append, hfills, filledQty_maker hk, filledQty_maker hk]
  · intro r q o l h hc hx hq ha hlt
    dsimp only
    have ho : o ∈ r.side s.opposite := mem_of_cons hc
    -- the order the first sweep stopped in is still the first
    have hwf : Ref.WF { r.setQty s.opposite o.key (o.qty - q) with lastTrade := some o.price } :=
      (h.setQty ho (by omega)).withTrade _
    have hc' : Ref.side { r.setQty s.opposite o.key (o.qty - q) with lastTrade := some o.price } s.opposite =
        { o with qty := o.qty - q } :: l := by
      rw [withTrade_side, h.setQty_head hc]
    by_cases hzero : q₂ = 0
    · rw [hzero, sweep_zero, Nat.add_zero, sweep_part hc hx hq ha hlt]
      refine ⟨rfl, rfl, fun k hk => ?_⟩
      dsimp only
      rw [List.append_nil, filledQty_maker hk, filledQty_maker hk]
    · by_cases hle : o.qty ≤ q + q₂
      · rw [sweep_fill h hc hx (by omega) ha hle,
          sweep_fill hwf hc' hx (by omega) ha (show o.qty - q ≤ q₂ by omega)]
        dsimp only
        rw [remove_setQty, show q₂ - (o.qty - q) = q + q₂ - o.qty by omega]
        have hid := ((h.remove ho).withTrade (some o.price)).sweep_anyId a j m s limit (q + q₂ - o.qty)
        refine ⟨hid.state, by simpa using hid.left, fun k hk => ?_⟩
        dsimp only
        rw [filledQty_append, filledQty_append, filledQty_append, hid.fills k hk, filledQty_maker hk,
          filledQty_maker hk, filledQty_maker hk]
        have hkey : Order.key { o with qty := o.qty - q } = o.key := rfl
        rw [hkey]
        split
        · omega
        · omega
      · rw [sweep_part hc hx (by omega) ha (by omega),
          sweep_part hc' hx (by omega) ha (show q₂ < o.qty - q by omega)]
        dsimp only
        have hkey : Order.key { o with qty := o.qty - q } = o.key := rfl
        rw [hkey, setQty_setQty, show o.qty - q - q₂ = o.qty - (q + q₂) by omega]
        refine ⟨rfl, rfl, fun k hk => ?_⟩
        dsimp only
        rw [filledQty_append, filledQty_maker hk, filledQty_maker hk, filledQty_maker hk, hkey]
        split
        · rfl
        · rfl

/-- An order that cannot rest sweeps and is done. -/
theorem dispatch_sweeping (P : Profile) {k : OrderKind} {t : Tif} (hsweeps : k = .market ∨ t = .ioc)
    (hk : r.find (a, i) = none) (p q ts : ℕ) :
    r.dispatch P (.newOrder a i s p q k t ts) = ((r.sweep a i s (limitOf k s p) q).1,
      (r.sweep a i s (limitOf k s p) q).2.2 ++ [.accepted a i 0]) := by
  cases k with
  | market =>
    cases s with
    | buy => exact submitIoc_fresh hk
    | sell => exact submitIoc_fresh hk
  | limit =>
    obtain rfl : t = .ioc := hsweeps.resolve_left (by simp)
    exact submitIoc_fresh hk

/-- An amend that changes more than it may in place. -/
theorem dispatch_requeue (P : Profile) (hf : r.find (a, i) = some (s, o)) {p : ℕ} (hq : q ≠ 0)
    (hchanges : ¬ (p = o.price ∧ q ≤ o.qty)) :
    r.dispatch P (.cancelReplace a i p q) =
      (((r.remove s o).sweep a i s p q).1.restRemainder a i s p ((r.remove s o).sweep a i s p q).2.1,
        .replaced a i q false :: ((r.remove s o).sweep a i s p q).2.2) := by
  show r.modify a i p q = _
  unfold modify
  rw [if_neg hq, hf]
  exact if_neg hchanges

end Ref

/-- A command's events are those of the reference book, and a top-of-book update or none. -/
theorem Engine.apply_dispatch {P : Profile} (hP : P.Total) {e : Engine} {r r' : Ref} (hs : Sim P ⊤ e.book r) {c : Command}
    (hc : c.Checked P) (hsnap : c ≠ .snapshot) {evs : List Event} (hd : r.dispatch P c = (r', evs)) :
    ∃ e' upd, e.apply P c = .ok (e', evs ++ upd) ∧ (∀ ev ∈ upd, ev.isBookUpdate = true) ∧ Sim P ⊤ e'.book r' := by
  obtain ⟨e', he', hs'⟩ := hs.apply hc (Fits.of_total hP _) (fun h => absurd h hsnap)
  obtain ⟨upd, hevs, hupd⟩ := r.apply_updates P c
  have hstate : (r.apply P c).1 = r' := congrArg Prod.fst hd
  rw [hd] at hevs
  rw [hevs] at he'
  rw [hstate] at hs'
  exact ⟨e', upd, he', hupd, hs'⟩

/-- **An amend that loses its priority is a cancel and a new order.** From every state an engine reaches, for every
resting order and every new price and quantity that cannot be amended in place: the amend, and the cancel followed by
a GTC order under the same key, emit the same fills, prints and self-trade cancels in the same order, and from the two
ends every further sequence of commands emits the same events, or panics in the same way. -/
theorem amend_is_cancel_then_new {P : Profile} (hP : P.Total) {cmds : List Command} (hcmds : ∀ c ∈ cmds, c.Checked P)
    {e : Engine} {evss : List (List Event)} (hrun : Engine.new.runFrom P cmds = .ok (e, evss)) {a i x : ℕ} {n : Node}
    (hindex : e.book.orderIndex.lookup (a, i) = some x) (hnode : e.book.arena.get x = some n) {p q ts : ℕ}
    (hc : (Command.newOrder a i n.side p q .limit .gtc ts).Checked P) (hchanges : ¬ (p = n.price ∧ q ≤ n.qty)) :
    ∃ e₁ e₂ e₃ matched left upd₁ upd₂ upd₃,
      e.apply P (.cancelReplace a i p q) = .ok (e₁, .replaced a i q false :: matched ++ upd₁) ∧
      e.apply P (.cancelOrder a i) = .ok (e₂, .cancelled a i :: upd₂) ∧
      e₂.apply P (.newOrder a i n.side p q .limit .gtc ts) = .ok (e₃, matched ++ .accepted a i left :: upd₃) ∧
      (∀ ev ∈ matched, ev.isMatch = true) ∧ (∀ ev ∈ upd₁ ++ upd₂ ++ upd₃, ev.isBookUpdate = true) ∧
      ∀ more, (∀ c ∈ more, c.Checked P) → (e₁.runFrom P more).map Prod.snd = (e₃.runFrom P more).map Prod.snd := by
  obtain ⟨r, hs⟩ := sim_of_checked_run hP hcmds hrun
  have hf : r.find (a, i) = some (n.side, n.order) := by
    rcases hs.lookup (a, i) with ⟨hl, -⟩ | ⟨x', n', hl, hn', -, hf⟩
    · rw [hindex] at hl
      cases hl
    · rw [hindex, Option.some.injEq] at hl
      subst hl
      rw [hnode, Option.some.injEq] at hn'
      rw [hn']
      exact hf
  have hout := hs.wf.remove (Ref.find_some hf).1
  have hfree : (r.remove n.side n.order).find (a, i) = none := hs.wf.find_remove hf
  obtain ⟨e₁, upd₁, he₁, hupd₁, hs₁⟩ := Engine.apply_dispatch hP hs (c := .cancelReplace a i p q) trivial (by simp)
    (Ref.dispatch_requeue P hf hc.1 hchanges)
  have hcancel : r.dispatch P (.cancelOrder a i) = (r.remove n.side n.order, [.cancelled a i]) := by
    show r.cancel a i = _
    unfold Ref.cancel
    rw [hf]
  obtain ⟨e₂, upd₂, he₂, hupd₂, hs₂⟩ := Engine.apply_dispatch hP hs (c := .cancelOrder a i) trivial (by simp) hcancel
  have hgtc : (r.remove n.side n.order).dispatch P (.newOrder a i n.side p q .limit .gtc ts) = _ :=
    Ref.submitGtc_fresh hfree
  obtain ⟨e₃, upd₃, he₃, hupd₃, hs₃⟩ := Engine.apply_dispatch hP hs₂ hc (by simp) hgtc
  rw [List.append_assoc, List.singleton_append] at he₃
  refine ⟨e₁, e₂, e₃, _, _, upd₁, upd₂, upd₃, he₁, he₂, he₃, hout.sweep_matches a i n.side p q, ?_, fun more hmore => ?_⟩
  · rw [List.forall_mem_append, List.forall_mem_append]
    exact ⟨⟨hupd₁, hupd₂⟩, hupd₃⟩
  · exact Engine.Alike.runFrom ⟨_, hs₁, hs₃⟩ hP hmore

/-- Account 2 reprices its bid onto an ask of five: it takes the five, and three lots rest. -/
theorem amend_is_cancel_then_new_crossing :
    ∃ e evss e₁ e₂ e₃ matched left upd₁ upd₂ upd₃, Engine.new.runFrom .release
        [.newOrder 1 1 .sell 100 5 .limit .gtc 0, .newOrder 2 1 .buy 99 3 .limit .gtc 0] = .ok (e, evss) ∧
      e.apply .release (.cancelReplace 2 1 100 8) = .ok (e₁, .replaced 2 1 8 false :: matched ++ upd₁) ∧
      e.apply .release (.cancelOrder 2 1) = .ok (e₂, .cancelled 2 1 :: upd₂) ∧
      e₂.apply .release (.newOrder 2 1 .buy 100 8 .limit .gtc 0) = .ok (e₃, matched ++ .accepted 2 1 left :: upd₃) ∧
      (e₁.runFrom .release [.newOrder 1 2 .sell 100 9 .limit .gtc 0, .snapshot]).map Prod.snd =
        (e₃.runFrom .release [.newOrder 1 2 .sell 100 9 .limit .gtc 0, .snapshot]).map Prod.snd := by
  obtain ⟨⟨e, evss⟩, hrun, hnode⟩ := exists_ok_of_decide (x := Engine.new.runFrom .release
      [.newOrder 1 1 .sell 100 5 .limit .gtc 0, .newOrder 2 1 .buy 99 3 .limit .gtc 0])
    (p := fun v => ((v.1.book.orderIndex.lookup (2, 1)).bind v.1.book.arena.get).map (fun n => (n.side, n.price)) =
      some (.buy, 99)) (by decide +kernel)
  obtain ⟨n, hn, hside⟩ := Option.map_eq_some_iff.1 hnode
  obtain ⟨x, hindex, hn⟩ := Option.bind_eq_some_iff.1 hn
  obtain ⟨hside, hprice⟩ := Prod.mk.inj hside
  have hdec : ∀ c ∈ [Command.newOrder 1 1 .sell 100 5 .limit .gtc 0, .newOrder 2 1 .buy 99 3 .limit .gtc 0],
      c.Decodable := by decide
  have hmore : ∀ c ∈ [Command.newOrder 1 2 .sell 100 9 .limit .gtc 0, .snapshot], c.Decodable := by decide
  have hchanges : ¬ (100 = n.price ∧ 8 ≤ n.qty) := by
    intro h
    omega
  have hc : (Command.newOrder 2 1 n.side 100 8 .limit .gtc 0).Checked .release := ⟨by decide, fun h => by cases h⟩
  obtain ⟨e₁, e₂, e₃, matched, left, upd₁, upd₂, upd₃, h₁, h₂, h₃, -, -, hfuture⟩ :=
    amend_is_cancel_then_new Profile.release_total (fun c hc => (hdec c hc).checked) hrun hindex hn hc hchanges
  rw [hside] at h₃
  exact ⟨e, evss, e₁, e₂, e₃, matched, left, upd₁, upd₂, upd₃, hrun, h₁, h₂, h₃,
    hfuture _ (fun c hc => (hmore c hc).checked)⟩

/-- **An order that does not rest can be sent in two pieces.** From every state an engine reaches, a market or IOC order
for the sum of two quantities, and two orders for one quantity each, one behind the other and under any keys that do
not rest, fill every other account's orders for the same quantities; and from the two ends every further sequence of
commands emits the same events, or panics in the same way. -/
theorem split_order_matches_alike {P : Profile} (hP : P.Total) {cmds : List Command} (hcmds : ∀ c ∈ cmds, c.Checked P)
    {e : Engine} {evss : List (List Event)} (hrun : Engine.new.runFrom P cmds = .ok (e, evss)) {a i j m : ℕ} {s : Side}
    {p q₁ q₂ ts : ℕ} {k : OrderKind} {t : Tif} (hsweeps : k = .market ∨ t = .ioc)
    (hc₁ : (Command.newOrder a i s p q₁ k t ts).Checked P) (hc₂ : (Command.newOrder a j s p q₂ k t ts).Checked P)
    (hfree : ∀ x ∈ [i, j, m], e.book.orderIndex.lookup (a, x) = none) :
    ∃ e₁ e₂ e₃ matched matched₁ matched₂ upd₁ upd₂ upd₃,
      e.apply P (.newOrder a m s p (q₁ + q₂) k t ts) = .ok (e₁, matched ++ .accepted a m 0 :: upd₁) ∧
      e.apply P (.newOrder a i s p q₁ k t ts) = .ok (e₂, matched₁ ++ .accepted a i 0 :: upd₂) ∧
      e₂.apply P (.newOrder a j s p q₂ k t ts) = .ok (e₃, matched₂ ++ .accepted a j 0 :: upd₃) ∧
      (∀ id : Key, id.1 ≠ a → filledQty id matched = filledQty id matched₁ + filledQty id matched₂) ∧
      (∀ ev ∈ upd₁ ++ upd₂ ++ upd₃, ev.isBookUpdate = true) ∧
      ∀ more, (∀ c ∈ more, c.Checked P) → (e₁.runFrom P more).map Prod.snd = (e₃.runFrom P more).map Prod.snd := by
  obtain ⟨r, hs⟩ := sim_of_checked_run hP hcmds hrun
  have hfind : ∀ x ∈ [i, j, m], r.find (a, x) = none := by
    intro x hx
    rcases hs.lookup (a, x) with ⟨-, hk⟩ | ⟨y, n, hy, -⟩
    · exact hk
    · rw [hfree x hx] at hy
      cases hy
  have hc : (Command.newOrder a m s p (q₁ + q₂) k t ts).Checked P := by
    obtain ⟨hq, hp⟩ := hc₁
    exact ⟨by omega, hp⟩
  obtain ⟨e₁, upd₁, he₁, hupd₁, hs₁⟩ := Engine.apply_dispatch hP hs hc (by simp)
    (Ref.dispatch_sweeping P hsweeps (hfind m (by simp)) p (q₁ + q₂) ts)
  obtain ⟨e₂, upd₂, he₂, hupd₂, hs₂⟩ := Engine.apply_dispatch hP hs hc₁ (by simp)
    (Ref.dispatch_sweeping P hsweeps (hfind i (by simp)) p q₁ ts)
  obtain ⟨e₃, upd₃, he₃, hupd₃, hs₃⟩ := Engine.apply_dispatch hP hs₂ hc₂ (by simp)
    (Ref.dispatch_sweeping P hsweeps (hs.wf.sweep_find (hfind j (by simp))) p q₂ ts)
  rw [List.append_assoc, List.singleton_append] at he₁ he₂ he₃
  have hadd := hs.wf.sweep_add a i j m s (Ref.limitOf k s p) q₁ q₂
  refine ⟨e₁, e₂, e₃, _, _, _, upd₁, upd₂, upd₃, he₁, he₂, he₃, fun id hid => ?_, ?_, fun more hmore => ?_⟩
  · rw [← filledQty_append]
    exact hadd.fills id hid
  · rw [List.forall_mem_append, List.forall_mem_append]
    exact ⟨⟨hupd₁, hupd₂⟩, hupd₃⟩
  · refine Engine.Alike.runFrom ⟨_, hs₁, ?_⟩ hP hmore
    rw [hadd.state]
    exact hs₃

/-- Seven lots at market in pieces of two and five: the first stops inside an order, the second takes an own order out
on its way. -/
theorem split_order_matches_alike_market :
    ∃ e evss e₁ e₂ e₃ matched matched₁ matched₂ upd₁ upd₂ upd₃, Engine.new.runFrom .release
        [.newOrder 1 1 .sell 100 5 .limit .gtc 0, .newOrder 2 1 .sell 100 4 .limit .gtc 0,
         .newOrder 3 1 .sell 101 6 .limit .gtc 0] = .ok (e, evss) ∧
      e.apply .release (.newOrder 2 2 .buy 0 (2 + 5) .market .ioc 0) = .ok (e₁, matched ++ .accepted 2 2 0 :: upd₁) ∧
      e.apply .release (.newOrder 2 2 .buy 0 2 .market .ioc 0) = .ok (e₂, matched₁ ++ .accepted 2 2 0 :: upd₂) ∧
      e₂.apply .release (.newOrder 2 3 .buy 0 5 .market .ioc 0) = .ok (e₃, matched₂ ++ .accepted 2 3 0 :: upd₃) ∧
      filledQty (1, 1) matched = filledQty (1, 1) matched₁ + filledQty (1, 1) matched₂ ∧
      (e₁.runFrom .release [.newOrder 1 2 .buy 101 9 .limit .gtc 0, .snapshot]).map Prod.snd =
        (e₃.runFrom .release [.newOrder 1 2 .buy 101 9 .limit .gtc 0, .snapshot]).map Prod.snd := by
  obtain ⟨⟨e, evss⟩, hrun, hfree⟩ := exists_ok_of_decide (x := Engine.new.runFrom .release
      [.newOrder 1 1 .sell 100 5 .limit .gtc 0, .newOrder 2 1 .sell 100 4 .limit .gtc 0,
       .newOrder 3 1 .sell 101 6 .limit .gtc 0])
    (p := fun v => ∀ x ∈ ([2, 3, 2] : List ℕ), v.1.book.orderIndex.lookup (2, x) = none) (by decide +kernel)
  have hdec : ∀ c ∈ [Command.newOrder 1 1 .sell 100 5 .limit .gtc 0, .newOrder 2 1 .sell 100 4 .limit .gtc 0,
      .newOrder 3 1 .sell 101 6 .limit .gtc 0], c.Decodable := by decide
  have hc₁ : (Command.newOrder 2 2 .buy 0 2 .market .ioc 0).Checked .release := ⟨by decide, fun h => by cases h⟩
  have hc₂ : (Command.newOrder 2 3 .buy 0 5 .market .ioc 0).Checked .release := ⟨by decide, fun h => by cases h⟩
  have hmore : ∀ c ∈ [Command.newOrder 1 2 .buy 101 9 .limit .gtc 0, .snapshot], c.Decodable := by decide
  obtain ⟨e₁, e₂, e₃, matched, matched₁, matched₂, upd₁, upd₂, upd₃, h₁, h₂, h₃, hfills, -, hfuture⟩ :=
    split_order_matches_alike Profile.release_total (fun c hc => (hdec c hc).checked) hrun (.inl rfl) hc₁ hc₂ hfree
  exact ⟨e, evss, e₁, e₂, e₃, matched, matched₁, matched₂, upd₁, upd₂, upd₃, hrun, h₁, h₂, h₃, hfills (1, 1) (by decide),
    hfuture _ (fun c hc => (hmore c hc).checked)⟩

end MatchingEngine
