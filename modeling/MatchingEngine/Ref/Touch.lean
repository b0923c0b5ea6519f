import MatchingEngine.Ref.Total

/-!
# When the touch moves

A sweep that meets an order takes quantity off the best price of the opposite side. As long as the
quantity that rests fits the word it is summed in, the published touch is another one afterwards: no
trade goes without a top-of-book update (`Did.trade_moves`).

* `WF.sweep_eats`: the quantity at a price only falls, at the best price it does.
* `touch_moves`: then the touch is another one.
* `resting_le`: the quantity that rests was brought.
-/

namespace MatchingEngine

namespace Command

/-- The quantity a command brings. -/
def quantity : Command → ℕ
  | .newOrder _ _ _ _ qty _ _ _ => qty
  | .cancelReplace _ _ _ newQty => newQty
  | _ => 0

end Command

/-- A print. -/
def Event.isTrade : Event → Bool
  | .trade .. => true
  | _ => false

namespace Ref

variable {r r' : Ref} {c : Command} {evs : List Event} {a i limit q n : ℕ} {s : Side}

theorem qtyAt_le_total (r : Ref) (s : Side) (p : ℕ) : qtyAt (r.side s) p ≤ r.total Order.qty := by
  have hle : ∀ l : List Order, qtyAt l p ≤ (l.map Order.qty).sum := by
    intro l
    unfold qtyAt
    exact ((List.filter_sublist).map _).sum_le_sum fun _ _ => Nat.zero_le _
  rw [total_sides Order.qty r s]
  exact (hle _).trans (Nat.le_add_right _ _)

/-- The first order gone, and perhaps more. -/
theorem qtyAt_behind {o : Order} {l l' : List Order} (hpos : 0 < o.qty) (hle : ∀ p, qtyAt l' p ≤ qtyAt l p) :
    (∀ p, qtyAt l' p ≤ qtyAt (o :: l) p) ∧ qtyAt l' o.price < qtyAt (o :: l) o.price := by
  refine ⟨fun p => ?_, ?_⟩
  · rw [qtyAt_cons]
    exact (hle p).trans (Nat.le_add_left _ _)
  · have hhead := hle o.price
    rw [qtyAt_cons, if_pos rfl]
    omega

/-- **A sweep eats from the front**: no price gains quantity, and the best one loses some if anything was met. -/
theorem WF.sweep_eats (h : r.WF) (a i : ℕ) (s : Side) (limit q : ℕ) :
    (∀ p, qtyAt ((r.sweep a i s limit q).1.side s.opposite) p ≤ qtyAt (r.side s.opposite) p) ∧
    ((r.sweep a i s limit q).2.2 ≠ [] → ∃ o l, r.side s.opposite = o :: l ∧
      qtyAt ((r.sweep a i s limit q).1.side s.opposite) o.price < qtyAt (r.side s.opposite) o.price) := by
  refine h.sweep_induct (motive := fun r q res =>
    (∀ p, qtyAt (res.1.side s.opposite) p ≤ qtyAt (r.side s.opposite) p) ∧
    (res.2.2 ≠ [] → ∃ o l, r.side s.opposite = o :: l ∧
      qtyAt (res.1.side s.opposite) o.price < qtyAt (r.side s.opposite) o.price)) a i s limit ?_ ?_ ?_ ?_ q
  · intro r q _ _
    exact ⟨fun p => le_refl _, fun hne => absurd rfl hne⟩
  · intro r q o l r' q' evs h hc _ _ _ ih
    have hpos := h.pos o (r.side_sub_orders _ o (mem_of_cons hc))
    have hle : ∀ p, qtyAt (r'.side s.opposite) p ≤ qtyAt l p := h.remove_head hc ▸ ih.1
    obtain ⟨hall, hhead⟩ := qtyAt_behind hpos hle
    rw [hc]
    exact ⟨hall, fun _ => ⟨o, l, rfl, hhead⟩⟩
  · intro r q o l r' q' evs h hc _ _ _ _ ih
    have hpos := h.pos o (r.side_sub_orders _ o (mem_of_cons hc))
    have hout : Ref.side { r.remove s.opposite o with lastTrade := some o.price } s.opposite = l := by
      rw [withTrade_side, h.remove_head hc]
    have hle : ∀ p, qtyAt (r'.side s.opposite) p ≤ qtyAt l p := hout ▸ ih.1
    obtain ⟨hall, hhead⟩ := qtyAt_behind hpos hle
    rw [hc]
    exact ⟨hall, fun _ => ⟨o, l, rfl, hhead⟩⟩
  · intro r q o l h hc _ hq _ hlt
    rw [withTrade_side, h.setQty_head hc, hc]
    refine ⟨fun p => ?_, fun _ => ⟨o, l, rfl, ?_⟩⟩
    · rw [qtyAt_cons, qtyAt_cons]
      dsimp only
      split
      · omega
      · omega
    · rw [qtyAt_cons, qtyAt_cons, if_pos rfl, if_pos rfl]
      dsimp only
      omega

/-- What fits the word is stored as it is. -/
theorem stored_release {x : ℕ} (h : x < 2 ^ 64) : stored Profile.release.u64 x = x := by
  have hval : Profile.release.u64.val x = some (x % 2 ^ 64) := Word.wrapping_val 64 x
  unfold stored
  rw [hval, Nat.mod_eq_of_lt h]
  rfl

/-- Less at the best price, and the touch is another one. -/
theorem touch_moves {l l' : List Order} {o : Order} {rest : List Order} (hc : l = o :: rest)
    (hlt : qtyAt l' o.price < qtyAt l o.price) (hfit : qtyAt l o.price < 2 ^ 64) : touch .release l ≠ touch .release l' := by
  intro heq
  unfold touch at heq
  have hhead : l.head? = some o := by rw [hc]; rfl
  rw [hhead, Option.map_some] at heq
  obtain ⟨o', -, ho'⟩ := Option.map_eq_some_iff.1 heq.symm
  obtain ⟨hprice, hqty⟩ := Prod.mk.inj ho'
  rw [hprice, stored_release (hlt.trans hfit), stored_release hfit] at hqty
  omega

/-- The touch of a side is part of the top of book. -/
theorem topOfBook_ne (s : Side) (h : touch .release (r.side s) ≠ touch .release (r'.side s)) :
    r.topOfBook .release ≠ r'.topOfBook .release := by
  intro heq
  obtain ⟨hbid, hask⟩ := Prod.mk.inj heq
  cases s with
  | buy => exact h hbid
  | sell => exact h hask

theorem restRemainder_side_ne (r : Ref) (a i : ℕ) {s s' : Side} (p q : ℕ) (hs : s' ≠ s) :
    (r.restRemainder a i s p q).side s' = r.side s' := by
  unfold restRemainder
  split
  · exact rest_side_ne _ _ hs
  · rfl

/-- **No trade leaves the touch where it was.** -/
theorem Did.trade_moves (hd : Did r c r' evs) (h : r.WF) (hfit : r.total Order.qty < 2 ^ 64)
    (htrade : ∃ ev ∈ evs, ev.isTrade = true) : r.topOfBook .release ≠ r'.topOfBook .release := by
  obtain ⟨ev, hev, htrade⟩ := htrade
  have hcancelled : ∀ (l : List Order), ev ∉ l.map (fun o => Event.cancelled o.account o.id) := by
    intro l hmem
    obtain ⟨o, -, rfl⟩ := List.mem_map.1 hmem
    cases htrade
  cases hd with
  | idle quiet told =>
    have hq := quiet ev hev
    cases ev with
    | trade price qty takerSide => exact hq.elim
    | _ => cases htrade
  | @entered a i s p q k t ts limit rests fresh own bound drops =>
    rw [List.mem_append, List.mem_singleton] at hev
    rcases hev with hev | rfl
    · obtain ⟨o, l, hc, hlt⟩ := (h.sweep_eats a i s limit q).2 (List.ne_nil_of_mem hev)
      refine topOfBook_ne s.opposite (touch_moves hc ?_ ((r.qtyAt_le_total _ _).trans_lt hfit))
      split
      · rw [restRemainder_side_ne _ _ _ _ _ s.opposite_ne]
        exact hlt
      · exact hlt
    · cases htrade
  | posted fresh clear =>
    rw [List.mem_append, List.mem_singleton] at hev
    rcases hev with hev | rfl
    · exact absurd hev (hcancelled _)
    · cases htrade
  | refused fresh =>
    rw [List.mem_append, List.mem_singleton] at hev
    rcases hev with hev | rfl
    · exact absurd hev (hcancelled _)
    · cases htrade
  | amended found pos le =>
    rw [List.mem_singleton.1 hev] at htrade
    cases htrade
  | @requeued a i p q s o found pos changes =>
    rcases List.mem_cons.1 hev with rfl | hev
    · cases htrade
    · have hout := h.remove (find_some found).1
      obtain ⟨x, l, hc, hlt⟩ := (hout.sweep_eats a i s p q).2 (List.ne_nil_of_mem hev)
      rw [remove_side_ne _ _ s.opposite_ne] at hc hlt
      refine topOfBook_ne s.opposite (touch_moves hc ?_ ((r.qtyAt_le_total _ _).trans_lt hfit))
      rw [restRemainder_side_ne _ _ _ _ _ s.opposite_ne]
      exact hlt
  | cancelled found =>
    rw [List.mem_singleton.1 hev] at htrade
    cases htrade
  | @emptied a =>
    unfold massCancel at hev
    obtain ⟨id, -, rfl⟩ := List.mem_map.1 hev
    cases htrade

/-- **What rests was brought**: a command adds no more than its own quantity. -/
theorem Did.resting_le (hd : Did r c r' evs) (h : r.WF) : r'.total Order.qty ≤ r.total Order.qty + c.quantity := by
  rcases hd.total (w := Order.qty) h (fun _ _ hle => hle) with hle | ⟨o, hbrings, hle⟩
  · omega
  · have hqty : o.qty ≤ c.quantity := by
      cases c with
      | newOrder a i s p q k t ts => exact hbrings.2.2.2.2.2
      | cancelReplace a i p q => exact hbrings.2.2.2
      | _ => exact hbrings.elim
    omega

end Ref

end MatchingEngine
