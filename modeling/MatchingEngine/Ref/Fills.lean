import MatchingEngine.Ref.Step

/-!
# Who is filled, and by how much

`filledQty k evs` adds up the fills reported to the order under `k`.

* `WF.sweep_taker`: an aggressor is told of everything it trades.
* `WF.sweep_foreign`: a maker loses what it is told of, and keeps its place.
-/

namespace MatchingEngine

/-- The quantity an event reports filled for the order under a key. -/
def Event.filledFor (k : Key) : Event → ℕ
  | .filled a i _ _ q _ _ => if (a, i) = k then q else 0
  | _ => 0

/-- The quantity reported filled for the order under a key. -/
def filledQty (k : Key) (evs : List Event) : ℕ := (evs.map (Event.filledFor k)).sum

/-- What the fills leave of a resting order: less quantity, or nothing. -/
def Order.leftBy (evs : List Event) (o : Order) : Option Order :=
  if o.qty ≤ filledQty o.key evs then none else some { o with qty := o.qty - filledQty o.key evs }

section

variable {k : Key} {evs evs' : List Event}

/-- Fills add up. -/
theorem filledQty_append : filledQty k (evs ++ evs') = filledQty k evs + filledQty k evs' := by
  unfold filledQty
  rw [List.map_append, List.sum_append]

theorem filledQty_cons {ev : Event} : filledQty k (ev :: evs) = ev.filledFor k + filledQty k evs := rfl

/-- Events that fill nothing. -/
theorem filledQty_zero (h : ∀ ev ∈ evs, ev.filledFor k = 0) : filledQty k evs = 0 := by
  apply List.sum_eq_zero
  intro q hq
  obtain ⟨ev, hev, rfl⟩ := List.mem_map.1 hq
  exact h ev hev

theorem Event.Quiet.filledFor {ev : Event} (h : ev.Quiet) (k : Key) : ev.filledFor k = 0 := by
  cases ev with
  | filled a i s p q left st => exact h.elim
  | _ => rfl

/-- Cancels fill nothing. -/
theorem filledQty_cancelled {α : Type*} {f : α → Event} {l : List α} (hf : ∀ x, ∃ a i, f x = .cancelled a i) :
    filledQty k (l.map f) = 0 := by
  apply filledQty_zero
  intro ev hev
  obtain ⟨x, -, rfl⟩ := List.mem_map.1 hev
  obtain ⟨a, i, hx⟩ := hf x
  rw [hx]
  rfl

/-- An order that is not filled is left as it was. -/
theorem Order.leftBy_zero {o : Order} (hq : 0 < o.qty) (h : filledQty o.key evs = 0) : o.leftBy evs = some o := by
  unfold Order.leftBy
  rw [h, if_neg (by omega)]
  rfl

end

namespace Ref

variable {r : Ref} {a i : ℕ} {s : Side} {limit q : ℕ} {o : Order} {k : Key}

/-- One match, seen by the aggressor. -/
theorem filledQty_taker (ha : o.account ≠ a) (x v : ℕ) : filledQty (a, i) (fillEvents a i s o x v) = x := by
  have hne : ¬ (o.account = a ∧ o.id = i) := fun h => ha h.1
  simp [filledQty, fillEvents, Event.filledFor, hne]

/-- One match, seen by an order that is not the aggressor. -/
theorem filledQty_maker (hk : k.1 ≠ a) (x v : ℕ) :
    filledQty k (fillEvents a i s o x v) = if o.key = k then x else 0 := by
  have hne : (a, i) ≠ k := fun h => hk (h ▸ rfl)
  by_cases ho : (o.account, o.id) = k
  · simp [filledQty, fillEvents, Event.filledFor, hne, Order.key, ho]
  · simp [filledQty, fillEvents, Event.filledFor, hne, Order.key, ho]

/-- **The aggressor is told of everything it trades.** -/
theorem WF.sweep_taker (h : r.WF) :
    filledQty (a, i) (r.sweep a i s limit q).2.2 + (r.sweep a i s limit q).2.1 = q := by
  refine h.sweep_induct (motive := fun _ q res => filledQty (a, i) res.2.2 + res.2.1 = q) a i s limit ?_ ?_ ?_ ?_ q
  · intro r q _ _
    exact Nat.zero_add q
  · intro r q o l r' q' evs _ _ _ _ _ ih
    rw [filledQty_cons]
    simp only [Event.filledFor, Nat.zero_add]
    exact ih
  · intro r q o l r' q' evs _ _ _ _ ha hle ih
    rw [filledQty_append, filledQty_taker ha]
    simp only at ih ⊢
    omega
  · intro r q o l _ _ _ _ ha _
    rw [filledQty_taker ha]
    rfl

/-! ### Makers -/

/-- The orders of a side that are not the account's, in priority order. -/
def foreign (r : Ref) (a : ℕ) (s : Side) : List Order := (r.side s).filter (fun o => o.account ≠ a)

/-- What a command of account `a` may do to the others: fill their orders, and report each fill. -/
structure Spared (a : ℕ) (r : Ref) (evs : List Event) (r' : Ref) : Prop where
  /-- Nobody else is filled. -/
  absent : ∀ k : Key, k.1 ≠ a → (∀ s, ∀ o ∈ r.foreign a s, o.key ≠ k) → filledQty k evs = 0
  le : ∀ s, ∀ o ∈ r.foreign a s, filledQty o.key evs ≤ o.qty
  /-- What is left is in the same order. -/
  sides : ∀ s, r'.foreign a s = (r.foreign a s).filterMap (Order.leftBy evs)

variable {r' r₁ r₁' : Ref} {evs evs' : List Event}

/-- Other accounts' orders on a side. -/
theorem mem_foreign : o ∈ r.foreign a s ↔ o ∈ r.side s ∧ o.account ≠ a := by
  unfold foreign
  rw [List.mem_filter, decide_eq_true_iff]

/-- States and events the other accounts cannot tell apart. -/
theorem Spared.congr (h : Spared a r evs r') (hr : ∀ s, r₁.foreign a s = r.foreign a s)
    (hr' : ∀ s, r₁'.foreign a s = r'.foreign a s) (hevs : ∀ k : Key, k.1 ≠ a → filledQty k evs' = filledQty k evs) :
    Spared a r₁ evs' r₁' := by
  refine ⟨fun k hk hno => ?_, fun s o ho => ?_, fun s => ?_⟩
  · rw [hevs k hk]
    exact h.absent k hk (fun s o ho => hno s o (by rw [hr]; exact ho))
  · rw [hr] at ho
    rw [hevs _ (mem_foreign.1 ho).2]
    exact h.le s o ho
  · rw [hr', hr, h.sides]
    apply List.filterMap_congr
    intro o ho
    unfold Order.leftBy
    rw [hevs _ (mem_foreign.1 ho).2]

/-- Nobody is filled. -/
theorem WF.spared_self (h : r.WF) (a : ℕ) (hevs : ∀ k : Key, k.1 ≠ a → filledQty k evs = 0) : Spared a r evs r := by
  refine ⟨fun k hk _ => hevs k hk, fun s o ho => ?_, fun s => ?_⟩
  · rw [hevs _ (mem_foreign.1 ho).2]
    exact Nat.zero_le _
  · symm
    refine (List.filterMap_congr (fun o ho => ?_)).trans List.filterMap_some
    obtain ⟨hm, ha⟩ := mem_foreign.1 ho
    exact Order.leftBy_zero (h.pos o (r.side_sub_orders s o hm)) (hevs _ ha)

/-- The account's own orders come and go unseen. -/
theorem remove_foreign (ha : o.account = a) (s s' : Side) : (r.remove s o).foreign a s' = r.foreign a s' := by
  unfold foreign
  rw [remove_side]
  split
  · rename_i hs
    rw [hs, List.filter_filter]
    apply List.filter_congr
    intro x _
    by_cases hx : x.account = a
    · simp [hx]
    · have hk : x.key ≠ o.key := fun he => hx ((congrArg Prod.fst he).trans ha)
      simp [hx, hk]
  · rfl

theorem withTrade_foreign (r : Ref) (t : Option ℕ) (s : Side) :
    Ref.foreign { r with lastTrade := t } a s = r.foreign a s := by
  unfold foreign
  rw [withTrade_side]

section Match

variable {l : List Order} (h : r.WF) (hc : r.side s.opposite = o :: l) (ha : o.account ≠ a)

include hc ha in
theorem foreign_cons : r.foreign a s.opposite = o :: l.filter (fun o => o.account ≠ a) := by
  unfold foreign
  rw [hc, List.filter_cons_of_pos (by simpa using ha)]

include h hc in
/-- An order other than the first has another key. -/
theorem WF.key_ne_head {x : Order} {s' : Side} (hx : x ∈ (r.remove s.opposite o).side s') : x.key ≠ o.key := by
  have hm := (mem_orders _ x).2 ⟨s', hx⟩
  exact ((h.mem_remove (mem_of_cons hc)).1 hm).2

include h hc ha in
/-- An order of another account is filled whole. -/
theorem WF.spared_fill {v : ℕ} (hs : Spared a { r.remove s.opposite o with lastTrade := some o.price } evs r') :
    Spared a r (fillEvents a i s o o.qty v ++ evs) r' := by
  have hleft : ∀ s', Ref.foreign { r.remove s.opposite o with lastTrade := some o.price } a s' =
      (r.remove s.opposite o).foreign a s' := fun s' => withTrade_foreign _ _ s'
  have hne : ∀ s', ∀ x ∈ (r.remove s.opposite o).foreign a s', x.key ≠ o.key := fun s' x hx =>
    h.key_ne_head hc (mem_foreign.1 hx).1
  have hhead : r.foreign a s.opposite = o :: (r.remove s.opposite o).foreign a s.opposite := by
    rw [foreign_cons hc ha]
    unfold foreign
    rw [h.remove_head hc]
  have hother : ∀ s', s' ≠ s.opposite → (r.remove s.opposite o).foreign a s' = r.foreign a s' := by
    intro s' hs'
    unfold foreign
    rw [remove_side_ne _ _ hs']
  have hmem : ∀ s', ∀ x ∈ r.foreign a s', x = o ∨ x ∈ (r.remove s.opposite o).foreign a s' := by
    intro s' x hx
    by_cases hs' : s' = s.opposite
    · rw [hs', hhead] at hx
      rw [hs']
      exact List.mem_cons.1 hx
    · rw [hother s' hs']
      exact Or.inr hx
  -- the filled order is told of its whole quantity, everyone else of what comes after
  have hself : filledQty o.key (fillEvents a i s o o.qty v ++ evs) = o.qty := by
    rw [filledQty_append, filledQty_maker ha, if_pos rfl]
    rw [hs.absent o.key ha (fun s' x hx => hne s' x (by rw [← hleft]; exact hx))]
    rfl
  have hrest : ∀ k : Key, k.1 ≠ a → k ≠ o.key → filledQty k (fillEvents a i s o o.qty v ++ evs) = filledQty k evs := by
    intro k hk hko
    rw [filledQty_append, filledQty_maker hk, if_neg (fun he => hko he.symm), Nat.zero_add]
  refine ⟨fun k hk hno => ?_, fun s' x hx => ?_, fun s' => ?_⟩
  · have hko : k ≠ o.key := fun he => hno s.opposite o (by rw [hhead]; simp) he.symm
    rw [hrest k hk hko]
    refine hs.absent k hk (fun s' x hx he => ?_)
    rw [hleft] at hx
    obtain ⟨hm, hxa⟩ := mem_foreign.1 hx
    exact hno s' x (mem_foreign.2 ⟨(r.remove_side_sublist _ _ _).subset hm, hxa⟩) he
  · rcases hmem s' x hx with rfl | hx'
    · rw [hself]
    · rw [hrest _ (mem_foreign.1 hx).2 (hne s' x hx')]
      exact hs.le s' x (by rw [hleft]; exact hx')
  · have hcongr : ((r.remove s.opposite o).foreign a s').filterMap (Order.leftBy (fillEvents a i s o o.qty v ++ evs)) =
        ((r.remove s.opposite o).foreign a s').filterMap (Order.leftBy evs) := by
      apply List.filterMap_congr
      intro x hx
      unfold Order.leftBy
      rw [hrest _ (mem_foreign.1 hx).2 (hne s' x hx)]
    rw [hs.sides, hleft, ← hcongr]
    by_cases hs' : s' = s.opposite
    · subst hs'
      rw [hhead, List.filterMap_cons_none]
      unfold Order.leftBy
      rw [hself, if_pos (le_refl _)]
    · rw [hother s' hs']

include h hc ha in
/-- An order of another account is filled in part. -/
theorem WF.spared_part (hlt : q < o.qty) :
    Spared a r (fillEvents a i s o q 0) { r.setQty s.opposite o.key (o.qty - q) with lastTrade := some o.price } := by
  have hself : filledQty o.key (fillEvents a i s o q 0) = q := by rw [filledQty_maker ha, if_pos rfl]
  have hrest : ∀ k : Key, k.1 ≠ a → k ≠ o.key → filledQty k (fillEvents a i s o q 0) = 0 := by
    intro k hk hko
    rw [filledQty_maker hk, if_neg (fun he => hko he.symm)]
  have hsame : ∀ s' x, x ∈ r.foreign a s' → x.key ≠ o.key → Order.leftBy (fillEvents a i s o q 0) x = some x := by
    intro s' x hx hk
    obtain ⟨hm, hxa⟩ := mem_foreign.1 hx
    exact Order.leftBy_zero (h.pos x (r.side_sub_orders s' x hm)) (hrest _ hxa hk)
  refine ⟨fun k hk hno => ?_, fun s' x hx => ?_, fun s' => ?_⟩
  · exact hrest k hk (fun he => hno s.opposite o (mem_foreign.2 ⟨mem_of_cons hc, ha⟩) he.symm)
  · by_cases hk : x.key = o.key
    · obtain rfl := h.key_inj (r.side_sub_orders s' x (mem_foreign.1 hx).1) (r.side_sub_orders _ o (mem_of_cons hc)) hk
      rw [hself]
      omega
    · rw [hrest _ (mem_foreign.1 hx).2 hk]
      exact Nat.zero_le _
  · rw [withTrade_foreign]
    by_cases hs' : s' = s.opposite
    · subst hs'
      have hkeys := h.side_keys s.opposite
      rw [hc, List.map_cons, List.nodup_cons] at hkeys
      have hafter : (r.setQty s.opposite o.key (o.qty - q)).foreign a s.opposite =
          { o with qty := o.qty - q } :: l.filter (fun o => o.account ≠ a) := by
        unfold foreign
        rw [h.setQty_head hc, List.filter_cons_of_pos (by simpa using ha)]
      have hfirst : Order.leftBy (fillEvents a i s o q 0) o = some { o with qty := o.qty - q } := by
        unfold Order.leftBy
        rw [hself, if_neg (by omega)]
      rw [hafter, foreign_cons hc ha, List.filterMap_cons_some hfirst]
      congr 1
      symm
      refine (List.filterMap_congr (fun x hx => ?_)).trans List.filterMap_some
      refine hsame s.opposite x ?_ ?_
      · rw [foreign_cons hc ha]
        exact List.mem_cons_of_mem _ hx
      · intro he
        exact hkeys.1 (he ▸ List.mem_map_of_mem (List.mem_filter.1 hx).1)
    · have hside : (r.setQty s.opposite o.key (o.qty - q)).foreign a s' = r.foreign a s' := by
        unfold foreign
        rw [setQty_side_ne _ _ _ hs']
      rw [hside]
      symm
      refine (List.filterMap_congr (fun x hx => ?_)).trans List.filterMap_some
      refine hsame s' x hx (fun he => hs' ?_)
      exact h.side_disjoint (mem_foreign.1 hx).1 (mem_of_cons hc) he

end Match

/-- **A sweep spares the others but for their fills.** -/
theorem WF.sweep_foreign (h : r.WF) (a i : ℕ) (s : Side) (limit q : ℕ) :
    Spared a r (r.sweep a i s limit q).2.2 (r.sweep a i s limit q).1 := by
  refine h.sweep_induct (motive := fun r _ res => Spared a r res.2.2 res.1) a i s limit ?_ ?_ ?_ ?_ q
  · intro r q h _
    exact h.spared_self a (fun _ _ => rfl)
  · intro r q o l r' q' evs _ _ _ _ ha ih
    exact ih.congr (fun s' => (remove_foreign ha _ s').symm) (fun _ => rfl) (fun k _ => by
      rw [filledQty_cons]
      exact Nat.zero_add _)
  · intro r q o l r' q' evs h hc _ _ ha _ ih
    exact h.spared_fill hc ha ih
  · intro r q o l h hc _ _ ha hlt
    exact h.spared_part hc ha hlt

end Ref

end MatchingEngine
