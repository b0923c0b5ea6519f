import MatchingEngine.Ref.Stamp
import MatchingEngine.Risk.Limits

/-!
# Price-time priority is never violated

Along every run the ghost stamps (`Ref.Stamp`) increase from the head of each level to its
tail. So the priority list of a side is its orders sorted by price and then by stamp, and
an aggressor works through it from the front: whatever it touches is an initial segment
of the crossing orders, gone but for the last, which may stay in front with less quantity.

* `Ref.Struck`: what an aggressor leaves of the opposite side.
* `Did.struck`, `Did.gone`: every command, by its kind.
* `price_time_priority`: whole runs, and every command after them.
-/

namespace MatchingEngine

namespace Ref

/-- The side a command aggresses on, and its limit. -/
def aggressor (r : Ref) : Command → Option (Side × ℕ)
  | .newOrder _ _ s p _ k _ _ => some (s, limitOf k s p)
  | .cancelReplace a i p _ => (r.find (a, i)).map (fun e => (e.1, p))
  | _ => none

/-- The orders under `ks` are the first of the opposite side, all crossing; afterwards they are gone,
or all but the last, which stays in front with less quantity. -/
def Struck (r : Ref) (s : Side) (limit : ℕ) (ks : List Key) (r' : Ref) : Prop :=
  ∃ pre post, r.side s.opposite = pre ++ post ∧ (∀ o ∈ pre, s.crosses limit o.price) ∧ ks = pre.map Order.key ∧
    (r'.side s.opposite = post ∨
      ∃ pre' o v, pre = pre' ++ [o] ∧ r'.side s.opposite = { o with qty := v } :: post ∧ 0 < v ∧ v < o.qty)

variable {r r' r₁ : Ref} {s : Side} {limit : ℕ} {o : Order} {ks : List Key} {c : Command} {evs : List Event} {a i : ℕ}

theorem Struck.none (h : r'.side s.opposite = r.side s.opposite) : Struck r s limit [] r' :=
  ⟨[], r.side s.opposite, rfl, by simp, rfl, Or.inl h⟩

/-- The own side of the aggressor does not matter. -/
theorem Struck.congr (h : Struck r s limit ks r') (h₁ : r₁.side s.opposite = r'.side s.opposite) :
    Struck r s limit ks r₁ := by
  unfold Struck at *
  rw [h₁]
  exact h

theorem Struck.congr_left (h : Struck r s limit ks r') (h₁ : r₁.side s.opposite = r.side s.opposite) :
    Struck r₁ s limit ks r' := by
  unfold Struck at *
  rw [h₁]
  exact h

/-- One more order in front. -/
theorem Struck.cons {l : List Order} (hc : r.side s.opposite = o :: l) (hx : s.crosses limit o.price)
    (h₁ : r₁.side s.opposite = l) (h : Struck r₁ s limit ks r') : Struck r s limit (o.key :: ks) r' := by
  obtain ⟨pre, post, hsplit, hcross, rfl, hend⟩ := h
  refine ⟨o :: pre, post, by rw [hc, ← h₁, hsplit]; rfl, ?_, rfl, ?_⟩
  · intro x hxm
    rcases List.mem_cons.1 hxm with rfl | hxm
    · exact hx
    · exact hcross x hxm
  · rcases hend with hend | ⟨pre', x, v, rfl, hend⟩
    · exact Or.inl hend
    · exact Or.inr ⟨o :: pre', x, v, rfl, hend⟩

theorem makers_fillEvents {q rem : ℕ} (ha : o.account ≠ a) (evs : List Event) :
    (fillEvents a i s o q rem ++ evs).filterMap (Event.maker (a, i)) = o.key :: evs.filterMap (Event.maker (a, i)) := by
  have hne : (o.account, o.id) ≠ (a, i) := fun he => ha (Prod.mk.inj he).1
  simp only [fillEvents, List.cons_append, List.nil_append, List.filterMap_cons, Event.maker, if_true, if_neg hne]
  rfl

/-- **A sweep strikes from the front.** -/
theorem WF.struck_sweep (h : r.WF) (s : Side) (limit q : ℕ) :
    Struck r s limit ((r.sweep a i s limit q).2.2.filterMap (Event.maker (a, i))) (r.sweep a i s limit q).1 := by
  refine h.sweep_induct (motive := fun r _ res => Struck r s limit (res.2.2.filterMap (Event.maker (a, i))) res.1)
    a i s limit ?_ ?_ ?_ ?_ q
  · intro r q _ _
    exact Struck.none rfl
  · intro r q o l r' q' evs h hc hx _ _ ih
    exact Struck.cons hc hx (h.remove_head hc) ih
  · intro r q o l r' q' evs h hc hx _ ha _ ih
    simp only [makers_fillEvents ha]
    refine Struck.cons hc hx ?_ ih
    rw [withTrade_side, h.remove_head hc]
  · intro r q o l h hc hx hq ha hlt
    have hev : (fillEvents a i s o q 0).filterMap (Event.maker (a, i)) = [o.key] := makers_fillEvents ha []
    simp only [hev]
    refine ⟨[o], l, hc, by simpa using hx, rfl, Or.inr ⟨[], o, o.qty - q, rfl, ?_, by omega, by omega⟩⟩
    rw [withTrade_side, h.setQty_head hc]

/-- The PostOnly check strikes own orders from the front. -/
theorem WF.struck_clear (h : r.WF) (a : ℕ) (s : Side) (limit : ℕ) :
    Struck r s limit ((r.ownPrefix a s limit).map Order.key) (r.clearOwn a s limit) := by
  refine h.clear_induct (motive := fun r r' own => Struck r s limit (own.map Order.key) r') a s limit ?_ ?_
  · intro r _ _
    exact Struck.none rfl
  · intro r o l r' own h hc hx _ ih
    exact Struck.cons hc hx (h.remove_head hc) ih

theorem makers_cancelled (own : List Order) (self : Key) :
    (own.map (fun o => Event.cancelled o.account o.id)).filterMap (Event.maker self) = own.map Order.key := by
  induction own with
  | nil => rfl
  | cons o own ih =>
    rw [List.map_cons, List.map_cons, ← ih]
    rfl

theorem makers_quiet (hq : ∀ ev ∈ evs, ev.Quiet) (self : Key) : evs.filterMap (Event.maker self) = [] := by
  rw [List.filterMap_eq_nil_iff]
  intro ev hev
  have := hq ev hev
  cases ev <;> first
    | exact this.elim
    | rfl

theorem restRemainder_opposite (r : Ref) (a i : ℕ) (s : Side) (p q : ℕ) :
    (r.restRemainder a i s p q).side s.opposite = r.side s.opposite := by
  unfold restRemainder
  split
  · exact rest_side_ne _ _ s.opposite_ne
  · rfl

/-- **A command strikes the opposite side from the front.** -/
theorem Did.struck (hd : Did r c r' evs) (h : r.WF) :
    (∀ s limit, r.aggressor c = some (s, limit) → Struck r s limit (makersTouched c evs) r') ∧
      (r.aggressor c = none → makersTouched c evs = []) := by
  cases hd with
  | @idle c evs quiet told =>
    have hnil : makersTouched c evs = [] := by
      cases c with
      | newOrder a i => exact makers_quiet quiet _
      | cancelReplace a i => exact makers_quiet quiet _
      | _ => rfl
    rw [hnil]
    exact ⟨fun s limit _ => Struck.none rfl, fun _ => rfl⟩
  | @entered a i s p q k t ts limit rests fresh own bound drops =>
    refine ⟨?_, by simp [aggressor]⟩
    intro s' limit' he
    simp only [aggressor, Option.some.injEq, Prod.mk.injEq] at he
    obtain ⟨rfl, rfl⟩ := he
    rw [← bound]
    have hev : ∀ v, makersTouched (.newOrder a i s p q k t ts) ((r.sweep a i s limit q).2.2 ++ [.accepted a i v]) =
        (r.sweep a i s limit q).2.2.filterMap (Event.maker (a, i)) := by
      intro v
      simp [makersTouched, Event.maker]
    rw [hev]
    refine (h.struck_sweep s limit q).congr ?_
    split
    · exact restRemainder_opposite _ _ _ _ _ _
    · rfl
  | @posted a i s p q ts fresh clear =>
    refine ⟨?_, by simp [aggressor]⟩
    intro s' limit' he
    simp only [aggressor, limitOf, Option.some.injEq, Prod.mk.injEq] at he
    obtain ⟨rfl, rfl⟩ := he
    have hev : makersTouched (.newOrder a i s p q .limit .postOnly ts)
        ((r.ownPrefix a s p).map (fun o => Event.cancelled o.account o.id) ++ [Event.accepted a i q]) =
        (r.ownPrefix a s p).map Order.key := by
      simp only [makersTouched, List.filterMap_append, makers_cancelled]
      exact List.append_nil _
    rw [hev]
    exact (h.struck_clear a s p).congr (rest_side_ne _ _ s.opposite_ne)
  | @refused a i s p q ts fresh =>
    refine ⟨?_, by simp [aggressor]⟩
    intro s' limit' he
    simp only [aggressor, limitOf, Option.some.injEq, Prod.mk.injEq] at he
    obtain ⟨rfl, rfl⟩ := he
    have hev : makersTouched (.newOrder a i s p q .limit .postOnly ts)
        ((r.ownPrefix a s p).map (fun o => Event.cancelled o.account o.id) ++ [Event.rejected a i .wouldCross]) =
        (r.ownPrefix a s p).map Order.key := by
      simp only [makersTouched, List.filterMap_append, makers_cancelled]
      exact List.append_nil _
    rw [hev]
    exact h.struck_clear a s p
  | @amended a i q s o found pos le =>
    refine ⟨?_, by simp [aggressor, found]⟩
    intro s' limit' he
    simp only [aggressor, found, Option.map_some, Option.some.injEq, Prod.mk.injEq] at he
    obtain ⟨rfl, rfl⟩ := he
    exact Struck.none (setQty_side_ne _ _ _ s.opposite_ne)
  | @requeued a i p q s o found pos changes =>
    refine ⟨?_, by simp [aggressor, found]⟩
    intro s' limit' he
    simp only [aggressor, found, Option.map_some, Option.some.injEq, Prod.mk.injEq] at he
    obtain ⟨rfl, rfl⟩ := he
    have h₁ := h.remove (find_some found).1
    have hs := (h₁.struck_sweep (a := a) (i := i) s p q).congr_left (remove_side_ne r o s.opposite_ne).symm
    exact hs.congr (restRemainder_opposite _ _ _ _ _ _)
  | cancelled found => exact ⟨by simp [aggressor], fun _ => rfl⟩
  | emptied => exact ⟨by simp [aggressor], fun _ => rfl⟩

/-- **Touched makers leave the book**, but for the last. -/
theorem Did.gone (hd : Did r c r' evs) (h : r.WF) {limit : ℕ} (ha : r.aggressor c = some (s, limit)) {k : Key}
    (hk : k ∈ (makersTouched c evs).dropLast) : r'.find k = none := by
  obtain ⟨pre, post, hsplit, -, htouched, hend⟩ := (hd.struck h).1 s limit ha
  rw [htouched] at hk
  have hnd := h.side_keys s.opposite
  rw [hsplit, List.map_append, List.nodup_append] at hnd
  obtain ⟨o, ho, rfl⟩ := List.mem_map.1 ((List.dropLast_sublist _).subset hk)
  have hos : o ∈ r.side s.opposite := by rw [hsplit]; exact List.mem_append_left _ ho
  rw [find_eq_none]
  -- whatever rests under the key afterwards rested before or was brought
  intro x hx hxk
  obtain ⟨s', hx⟩ := (r'.mem_orders x).1 hx
  rcases hd.origin h hx with ⟨y, hy, hyk, -⟩ | hb
  · -- it would still be on the opposite side
    obtain rfl : s' = s.opposite := h.side_disjoint hy hos (hyk.trans hxk)
    have hpost : ∀ z ∈ post, z.key ≠ o.key := fun z hz he =>
      hnd.2.2 o.key (List.mem_map_of_mem ho) z.key (List.mem_map_of_mem hz) he.symm
    rcases hend with hend | ⟨pre', z, v, rfl, hend, -⟩
    · rw [hend] at hx
      exact hpost x hx hxk
    · rw [hend] at hx
      rcases List.mem_cons.1 hx with rfl | hx
      · -- the one left over is the last, not `o`
        rw [List.map_append, List.map_singleton, List.dropLast_concat] at hk
        have hnd' := hnd.1
        rw [List.map_append, List.map_singleton, List.nodup_append] at hnd'
        exact hnd'.2.2 o.key hk z.key (by simp) hxk.symm
      · exact hpost x hx hxk
  · cases c with
    | newOrder a i s₂ p q kd t ts =>
      obtain ⟨-, -, hfresh, hkey, -⟩ := hb
      exact find_eq_none.1 hfresh o (r.side_sub_orders _ o hos) (hxk.symm.trans hkey)
    | cancelReplace a i p q =>
      obtain ⟨⟨s₂, y, hf, -⟩, hkey, -⟩ := hb
      simp only [aggressor, hf, Option.map_some, Option.some.injEq, Prod.mk.injEq] at ha
      obtain ⟨rfl, -⟩ := ha
      obtain ⟨hy, hyk⟩ := find_some hf
      exact s₂.opposite_ne (h.side_disjoint hos hy (hxk.symm.trans (hkey.trans hyk.symm)))
    | cancelOrder a i => exact hb
    | massCancel a => exact hb
    | killSwitch e => exact hb
    | snapshot => exact hb

/-- The top-of-book update touches no maker and stamps no order. -/
theorem apply_events (P : Profile) (r : Ref) (c : Command) (n : ℕ) (st : Key → ℕ) :
    restamp n st c (r.apply P c).2 = restamp n st c (r.dispatch P c).2 ∧
      makersTouched c (r.apply P c).2 = makersTouched c (r.dispatch P c).2 := by
  rcases r.apply_emits P c with he | ⟨bid, ask, he⟩
  · rw [he]
    exact ⟨rfl, rfl⟩
  · rw [he]
    cases c <;> simp [restamp, makersTouched, Event.rests, Event.requeues, Event.maker]

/-- The crossing prefix is all that crosses. -/
theorem WF.crossing_eq_filter (h : r.WF) (s : Side) (limit : ℕ) :
    r.crossing s limit = (r.side s.opposite).filter (fun o => s.crosses limit o.price) := by
  refine takeWhile_eq_filter (h.sorted s.opposite) ?_
  intro o o' hb hx
  simp only [decide_eq_true_eq] at hx ⊢
  exact s.crosses_of_better hb hx

end Ref

/-- `o` ranks ahead of `o'` on side `s`: a better price, or the same price and an older stamp. -/
def Before (st : Key → ℕ) (s : Side) (o o' : Order) : Prop :=
  (o.price ≠ o'.price ∧ s.better o.price o'.price) ∨ (o.price = o'.price ∧ st o.key < st o'.key)

namespace Book

/-- The side a command aggresses on, and its limit. -/
def aggressor (b : Book) : Command → Option (Side × ℕ)
  | .newOrder _ _ side price _ .limit _ _ => some (side, price)
  | .newOrder _ _ side _ _ .market _ _ => some (side, marketBound side)
  | .cancelReplace a i newPrice _ => do
    let slot ← b.orderIndex.lookup (a, i)
    let node ← b.arena.get slot
    pure (node.side, newPrice)
  | _ => none

/-- The resting orders an aggressor could trade against, in no particular order. -/
def crossingOrders (b : Book) (s : Side) (limit : ℕ) : List Order :=
  (b.nodes.filter (fun n => n.side = s.opposite ∧ s.crosses limit n.price)).map Node.order

/-- What an aggressor on side `s` that touched the makers `ks` did to the opposite side of `b`. -/
structure PriorityKept (st : Key → ℕ) (b b' : Book) (s : Side) (limit : ℕ) (ks : List Key) : Prop where
  /-- The makers are an initial segment of the crossing orders by price and then by stamp. -/
  ranked : ∃ L : List Order, L.Perm (b.crossingOrders s limit) ∧ L.Pairwise (Before st s.opposite) ∧ ks <+: L.map Order.key
  /-- All but the last are gone. -/
  gone : ∀ k ∈ ks.dropLast, b'.orderIndex.lookup k = none
  /-- The last is gone too, or stays where it was with less quantity; nothing behind it changed. -/
  last : b'.ordersOf s.opposite = (b.ordersOf s.opposite).drop ks.length ∨
    ∃ o post v, (b.ordersOf s.opposite).drop (ks.length - 1) = o :: post ∧ ks.getLast? = some o.key ∧
      b'.ordersOf s.opposite = { o with qty := v } :: post ∧ 0 < v ∧ v < o.qty

end Book

section

variable {P : Profile} {N : ℕ∞} {b b' : Book} {r r' : Ref} {n : ℕ} {st : Key → ℕ}

theorem Sim.ordersOf (h : Sim P N b r) (s : Side) : b.ordersOf s = r.side s := by
  rw [← h.abs]
  cases s <;> rfl

theorem Sim.aggressor (h : Sim P N b r) (c : Command) : b.aggressor c = r.aggressor c := by
  cases c with
  | newOrder a i s p q k t ts =>
    cases k with
    | limit => rfl
    | market => cases s <;> rfl
  | cancelReplace a i p q =>
    unfold Book.aggressor Ref.aggressor
    rcases h.lookup (a, i) with ⟨hl, hf⟩ | ⟨x, m, hl, hm, -, hf⟩
    · simp [hl, hf]
    · simp [hl, hf, hm]
  | _ => rfl

theorem Sim.crossingOrders (h : Sim P N b r) (s : Side) (limit : ℕ) :
    (r.crossing s limit).Perm (b.crossingOrders s limit) := by
  rw [h.wf.crossing_eq_filter]
  refine ((h.nodes_side s.opposite).symm.filter _).trans (List.Perm.of_eq ?_)
  unfold Book.crossingOrders
  rw [List.filter_map, List.filter_filter]
  congr 1
  apply List.filter_congr
  intro m _
  rw [Bool.eq_iff_iff, Bool.and_eq_true, decide_eq_true_iff, decide_eq_true_iff]
  constructor
  · rintro ⟨hx, hs⟩
    exact ⟨hs, of_decide_eq_true hx⟩
  · rintro ⟨hs, hx⟩
    exact ⟨decide_eq_true hx, hs⟩

/-- Stamps increase along every chain. -/
theorem Sim.chain_stamped (h : Sim P N b r) (hst : r.Stamped n st) (s : Side) (p : ℕ) :
    (b.chain s p).Pairwise (fun x y => ∀ m m', b.arena.get x = some m → b.arena.get y = some m' →
      st m.key < st m'.key) := by
  obtain ⟨R, hR, rfl⟩ := h.labels
  have hord := hst.ordered s
  rw [absOf_side] at hord
  unfold plain at hord
  rw [List.pairwise_map] at hord
  rw [hR.chain_eq]
  unfold chainOf
  rw [List.pairwise_map]
  refine (hord.sublist List.filter_sublist).imp_of_mem ?_
  rintro ⟨x, o⟩ ⟨y, o'⟩ hx hy hlt m m' hm hm'
  obtain ⟨hxR, hxp⟩ := mem_levelOf.1 hx
  obtain ⟨hyR, hyp⟩ := mem_levelOf.1 hy
  obtain ⟨m₁, hm₁, -, hmo⟩ := (hR.live s x o).1 hxR
  obtain ⟨m₂, hm₂, -, hmo'⟩ := (hR.live s y o').1 hyR
  obtain rfl : m = m₁ := Option.some.inj (hm.symm.trans hm₁)
  obtain rfl : m' = m₂ := Option.some.inj (hm'.symm.trans hm₂)
  rw [← Node.order_key, ← Node.order_key, hmo, hmo']
  exact hlt (hxp.trans hyp.symm)

/-- The crossing prefix is in order of price and then of stamp. -/
theorem Ref.WF.crossing_ranked (h : r.WF) (hst : r.Stamped n st) (s : Side) (limit : ℕ) :
    (r.crossing s limit).Pairwise (Before st s.opposite) := by
  refine List.Pairwise.sublist (List.takeWhile_sublist _) ?_
  refine ((h.sorted s.opposite).and (hst.ordered s.opposite)).imp ?_
  rintro o o' ⟨hb, hlt⟩
  by_cases hp : o.price = o'.price
  · exact Or.inr ⟨hp, hlt hp⟩
  · exact Or.inl ⟨hp, hb⟩

/-- A struck side, read off the books. -/
theorem Sim.priorityKept (h : Sim P N b r) (h' : Sim P N b' r') (hst : r.Stamped n st) {s : Side} {limit : ℕ}
    {ks : List Key} (hs : r.Struck s limit ks r') (hgone : ∀ k ∈ ks.dropLast, r'.find k = none) :
    b.PriorityKept st b' s limit ks := by
  obtain ⟨pre, post, hsplit, hcross, rfl, hend⟩ := hs
  refine ⟨⟨r.crossing s limit, h.crossingOrders s limit, h.wf.crossing_ranked hst s limit, ?_⟩, ?_, ?_⟩
  · have htake : r.crossing s limit = pre ++ post.takeWhile (fun o => s.crosses limit o.price) := by
      unfold Ref.crossing
      rw [hsplit, List.takeWhile_append_of_pos (by simpa using hcross)]
    rw [htake, List.map_append]
    exact List.prefix_append _ _
  · intro k hk
    exact h'.lookup_none (hgone k hk)
  · rw [h.ordersOf, h'.ordersOf, hsplit, List.length_map]
    rcases hend with hend | ⟨pre', o, v, rfl, hend, hpos, hlt⟩
    · exact Or.inl (by rw [hend, List.drop_left])
    · refine Or.inr ⟨o, post, v, ?_, ?_, hend, hpos, hlt⟩
      · rw [List.length_append, List.length_singleton, Nat.add_sub_cancel, List.append_assoc, List.drop_left]
        rfl
      · rw [List.map_append, List.map_singleton, List.getLast?_concat]

end

/-- The stamps after a run: each order carries the number of the command at which it last came to rest. -/
def stampsOf (cmds : List Command) (evss : List (List Event)) : Key → ℕ :=
  ((cmds.zip evss).foldl (fun m ce => (m.1 + 1, restamp m.1 m.2 ce.1 ce.2)) (0, fun _ => 0)).2

/-- **Price-time priority is never violated.** After every run the stamps increase along every chain
from head to tail, and every further command works through the opposite side in that order. -/
theorem price_time_priority {P : Profile} (hP : P.Total) {cmds : List Command} (hcmds : ∀ c ∈ cmds, c.Decodable)
    {e : Engine} {evss : List (List Event)} (hrun : Engine.new.runFrom P cmds = .ok (e, evss)) :
    (∀ s p, (e.book.chain s p).Pairwise (fun x y => ∀ n m, e.book.arena.get x = some n → e.book.arena.get y = some m →
      stampsOf cmds evss n.key < stampsOf cmds evss m.key)) ∧
    ∀ c e' evs, c.Decodable → e.apply P c = .ok (e', evs) →
      (∀ s limit, e.book.aggressor c = some (s, limit) →
        e.book.PriorityKept (stampsOf cmds evss) e'.book s limit (makersTouched c evs)) ∧
      (e.book.aggressor c = none → makersTouched c evs = []) := by
  have hinv := run_trace (C := fun _ c => c.Decodable)
    (f := fun (m : ℕ × (Key → ℕ)) c evs => (m.1 + 1, restamp m.1 m.2 c evs))
    (fun (m : ℕ × (Key → ℕ)) (e : Engine) => ∃ r, Sim P ⊤ e.book r ∧ r.Stamped m.1 m.2)
    (by
      rintro ⟨n, st⟩ e c e' evs ⟨r, hs, hst⟩ hc ha
      obtain ⟨rfl, hs'⟩ := hs.applied hP hc ha
      refine ⟨_, hs', ?_⟩
      rw [(r.apply_events P c n st).1]
      exact (r.did P c).stamped hs.wf (hc.checked (P := P)) hst)
    (m := (0, fun _ => 0))
    ⟨Ref.new, Sim.new P ⊤, by simp [Ref.new, Ref.orders], by intro s; cases s <;> simp [Ref.new, Ref.side]⟩
    (along_of_forall hcmds) hrun
  obtain ⟨r, hs, hst⟩ := hinv
  refine ⟨fun s p => hs.chain_stamped hst s p, ?_⟩
  intro c e' evs hc ha
  obtain ⟨rfl, hs'⟩ := hs.applied hP hc ha
  have hd := r.did P c
  rw [hs.aggressor, (r.apply_events P c 0 (fun _ => 0)).2]
  refine ⟨?_, (hd.struck hs.wf).2⟩
  intro s limit hagg
  exact hs.priorityKept hs' hst ((hd.struck hs.wf).1 s limit hagg) (fun k hk => hd.gone hs.wf hagg hk)

/-- An amend up goes behind the order that came later, and is hit after it. -/
theorem price_time_priority_requeued :
    ∃ e evss e' evs, Engine.new.runFrom .release
        [.newOrder 1 1 .sell 100 5 .limit .gtc 0, .newOrder 2 1 .sell 100 5 .limit .gtc 0, .cancelReplace 1 1 100 6] =
        .ok (e, evss) ∧
      e.apply .release (.newOrder 3 1 .buy 100 7 .limit .gtc 0) = .ok (e', evs) ∧
      e.book.PriorityKept (stampsOf [.newOrder 1 1 .sell 100 5 .limit .gtc 0, .newOrder 2 1 .sell 100 5 .limit .gtc 0,
        .cancelReplace 1 1 100 6] evss) e'.book .buy 100 [(2, 1), (1, 1)] := by
  obtain ⟨⟨e, evss⟩, hrun, hnext⟩ := exists_ok_of_decide (x := Engine.new.runFrom .release
    [.newOrder 1 1 .sell 100 5 .limit .gtc 0, .newOrder 2 1 .sell 100 5 .limit .gtc 0, .cancelReplace 1 1 100 6])
    (p := fun v => (v.1.apply .release (.newOrder 3 1 .buy 100 7 .limit .gtc 0)).toOption.map
      (fun w => makersTouched (.newOrder 3 1 .buy 100 7 .limit .gtc 0) w.2) = some [(2, 1), (1, 1)]) (by decide +kernel)
  obtain ⟨⟨e', evs⟩, hstep, htouched⟩ := exists_ok_of_map_toOption hnext
  have hkept := ((price_time_priority Profile.release_total (by decide) hrun).2 _ e' evs (by decide) hstep).1 .buy 100 rfl
  rw [htouched] at hkept
  exact ⟨e, evss, e', evs, hrun, hstep, hkept⟩

end MatchingEngine
