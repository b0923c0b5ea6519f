import MatchingEngine.Ref.Step

/-!
# Sums over the resting orders

`total w r` adds a weight `w` over all resting orders of `r`: an account's notional, the
resting quantity and the number of orders are all of this form.

* `total_remove`, `total_rest`, `total_setQty`: how the three changes move a sum.
* `Did.total`: a command raises a sum by at most the order it brings, less what the
  order under that key weighed before.
-/

namespace MatchingEngine

namespace Ref

/-- The sum of a weight over the resting orders. -/
def total (w : Order → ℕ) (r : Ref) : ℕ := (r.orders.map w).sum

/-- What the order under a key weighs. -/
def share (w : Order → ℕ) (r : Ref) (k : Key) : ℕ :=
  match r.find k with
  | some (_, o) => w o
  | none => 0

/-- A weight that does not grow when the quantity shrinks. -/
def Shrinks (w : Order → ℕ) : Prop := ∀ o q, q ≤ o.qty → w { o with qty := q } ≤ w o

variable {w : Order → ℕ} {r r' : Ref} {c : Command} {evs : List Event} {s : Side} {o : Order}

/-- The sum over both sides, whichever is named first. -/
theorem total_sides (w : Order → ℕ) (r : Ref) (s : Side) :
    r.total w = ((r.side s).map w).sum + ((r.side s.opposite).map w).sum := by
  unfold total orders
  rw [List.map_append, List.sum_append]
  cases s with
  | buy => rfl
  | sell => exact Nat.add_comm _ _

/-- An order that is taken out takes its share of the sum along. -/
theorem WF.total_remove (h : r.WF) (ho : o ∈ r.side s) : r.total w = w o + (r.remove s o).total w := by
  unfold total
  rw [((h.remove_perm ho).map w).sum_eq, List.map_cons, List.sum_cons]

/-- An order that rests brings its share. -/
theorem total_rest (w : Order → ℕ) (r : Ref) (s : Side) (o : Order) : (r.rest s o).total w = w o + r.total w := by
  unfold total
  rw [((r.rest_orders s o).map w).sum_eq, List.map_cons, List.sum_cons]

/-- A resized order trades its old share for the new. -/
theorem WF.total_setQty (h : r.WF) (ho : o ∈ r.side s) (q : ℕ) :
    (r.setQty s o.key q).total w + w o = r.total w + w { o with qty := q } := by
  rw [total_sides w _ s, total_sides w r s, setQty_side_ne _ _ _ s.opposite_ne, setQty_side, if_pos rfl]
  obtain ⟨pre, post, hsplit⟩ := List.append_of_mem ho
  have hk := h.side_keys s
  rw [hsplit] at hk ⊢
  rw [map_key_split (g := fun x : Order => { x with qty := q }) hk]
  simp only [List.map_append, List.map_cons, List.sum_append, List.sum_cons]
  omega

theorem total_withTrade (w : Order → ℕ) (r : Ref) (t : Option ℕ) : Ref.total w { r with lastTrade := t } = r.total w := rfl

/-- Orders that leave or shrink lower the sum. -/
theorem WF.total_sweep (h : r.WF) (hw : Shrinks w) (a i : ℕ) (s : Side) (limit q : ℕ) :
    (r.sweep a i s limit q).1.total w ≤ r.total w := by
  refine h.sweep_induct (motive := fun r _ res => res.1.total w ≤ r.total w) a i s limit ?_ ?_ ?_ ?_ q
  · intro r q _ _; exact le_refl _
  · intro r q o l r' q' evs h hc _ _ _ ih
    have := h.total_remove (w := w) (mem_of_cons hc)
    simp only at ih ⊢
    omega
  · intro r q o l r' q' evs h hc _ _ _ _ ih
    have := h.total_remove (w := w) (mem_of_cons hc)
    simp only [total_withTrade] at ih ⊢
    omega
  · intro r q o l h hc _ _ _ hlt
    have h1 := h.total_setQty (w := w) (mem_of_cons hc) (o.qty - q)
    have h2 := hw o (o.qty - q) (by omega)
    simp only [total_withTrade]
    omega

/-- Clearing own orders lowers every sum. -/
theorem WF.total_clear (h : r.WF) (a : ℕ) (s : Side) (limit : ℕ) : (r.clearOwn a s limit).total w ≤ r.total w := by
  refine h.clear_induct (motive := fun r r' _ => r'.total w ≤ r.total w) a s limit ?_ ?_
  · intro r _ _; exact le_refl _
  · intro r o l r' own h hc _ _ ih
    have := h.total_remove (w := w) (mem_of_cons hc)
    omega

/-- A key taken out takes its order's share along. -/
theorem WF.total_removeKey (h : r.WF) (k : Key) : (r.removeKey k).total w + r.share w k = r.total w := by
  unfold Ref.removeKey share
  cases hf : r.find k with
  | none => rfl
  | some e =>
    have := h.total_remove (w := w) (find_some hf).1
    show (r.remove e.1 e.2).total w + w e.2 = _
    omega

theorem WF.total_foldl_removeKey (h : r.WF) (a : ℕ) (ids : List ℕ) :
    (ids.foldl (fun r id => r.removeKey (a, id)) r).total w ≤ r.total w := by
  induction ids generalizing r with
  | nil => exact le_refl _
  | cons i ids ih =>
    have h1 := ih (h.removeKey (a, i))
    have h2 := h.total_removeKey (w := w) (a, i)
    rw [List.foldl_cons]
    omega

theorem total_restRemainder (w : Order → ℕ) (r : Ref) (a i : ℕ) (s : Side) (p q : ℕ) :
    (r.restRemainder a i s p q).total w = (if q > 0 then w ⟨a, i, p, q⟩ else 0) + r.total w := by
  unfold restRemainder
  by_cases hq : q > 0
  · rw [if_pos hq, if_pos hq, total_rest]
  · rw [if_neg hq, if_neg hq]
    omega

/-- **A command raises a sum only by the order it brings**, in exchange for the one under its key. -/
theorem Did.total (hd : Did r c r' evs) (h : r.WF) (hw : Shrinks w) :
    r'.total w ≤ r.total w ∨ ∃ o, r.Brings c o ∧ r'.total w + r.share w o.key ≤ r.total w + w o := by
  cases hd with
  | idle _ => exact Or.inl (le_refl _)
  | @entered a i s p q k t ts limit rests fresh own =>
    have hsweep := h.total_sweep hw a i s limit q
    by_cases hr : rests = true
    · rw [if_pos hr, total_restRemainder]
      by_cases hq : (r.sweep a i s limit q).2.1 > 0
      · refine Or.inr ⟨⟨a, i, p, (r.sweep a i s limit q).2.1⟩, ?_, ?_⟩
        · exact ⟨(own hr).1, Or.inl (own hr).2.1, fresh, rfl, rfl, h.sweep_le⟩
        · have hshare : r.share w (Order.key ⟨a, i, p, (r.sweep a i s limit q).2.1⟩) = 0 := by
            unfold share Order.key
            rw [fresh]
          rw [if_pos hq, hshare]
          omega
      · rw [if_neg hq]
        exact Or.inl (by omega)
    · rw [if_neg hr]
      exact Or.inl hsweep
  | @posted a i s p q ts fresh clear =>
    refine Or.inr ⟨⟨a, i, p, q⟩, ⟨rfl, Or.inr rfl, fresh, rfl, rfl, le_refl _⟩, ?_⟩
    have hshare : r.share w (Order.key ⟨a, i, p, q⟩) = 0 := by
      unfold share Order.key
      rw [fresh]
    have hclear := h.total_clear (w := w) a s p
    rw [hshare, total_rest]
    omega
  | refused fresh => exact Or.inl (h.total_clear _ _ _)
  | @amended a i q s o found pos le =>
    have h1 := h.total_setQty (w := w) (find_some found).1 q
    have h2 := hw o q le
    exact Or.inl (by omega)
  | @requeued a i p q s o found pos changes =>
    obtain ⟨ho, hk⟩ := find_some found
    have h₁ := h.remove ho
    -- the order goes out with its old weight and what is left of it comes back with the new one
    have hrem := h.total_remove (w := w) ho
    have hsweep := h₁.total_sweep hw a i s p q
    rw [total_restRemainder]
    by_cases hq : ((r.remove s o).sweep a i s p q).2.1 > 0
    · refine Or.inr ⟨⟨a, i, p, ((r.remove s o).sweep a i s p q).2.1⟩, ?_, ?_⟩
      · exact ⟨⟨s, o, found, changes⟩, rfl, rfl, h₁.sweep_le⟩
      · have hshare : r.share w (Order.key ⟨a, i, p, ((r.remove s o).sweep a i s p q).2.1⟩) = w o := by
          unfold share Order.key
          rw [found]
        rw [if_pos hq, hshare]
        omega
    · rw [if_neg hq]
      exact Or.inl (by omega)
  | cancelled found =>
    have := h.total_remove (w := w) (find_some found).1
    exact Or.inl (by omega)
  | emptied => exact Or.inl (h.total_foldl_removeKey _ _)

/-! ### Notional and count -/

/-- What an order adds to an account's notional. -/
def weigh (a : ℕ) (o : Order) : ℕ := if o.account = a then o.price * o.qty else 0

/-- An account's weight of an order shrinks with the order. -/
theorem weigh_shrinks (a : ℕ) : Shrinks (weigh a) := by
  intro o q hq
  unfold weigh
  by_cases ha : o.account = a
  · rw [if_pos ha, if_pos (show Order.account { o with qty := q } = a from ha)]
    exact Nat.mul_le_mul_left _ hq
  · rw [if_neg ha, if_neg (show ¬ Order.account { o with qty := q } = a from ha)]

theorem notionalIn_eq_sum (l : List Order) (a : ℕ) : notionalIn l a = (l.map (weigh a)).sum := by
  induction l with
  | nil => rfl
  | cons o l ih => rw [notionalIn_cons, List.map_cons, List.sum_cons, ih, weigh]

/-- An account's notional is one of these sums. -/
theorem notional_eq_total (r : Ref) (a : ℕ) : r.notional a = r.total (weigh a) := notionalIn_eq_sum _ _

/-- The number of orders is one of these sums. -/
theorem length_eq_total (r : Ref) : r.orders.length = r.total (fun _ => 1) := by
  unfold total
  rw [List.map_const', List.sum_replicate, smul_eq_mul, Nat.mul_one]

/-- A command brings at most one order. -/
theorem Did.length (hd : Did r c r' evs) (h : r.WF) : r'.orders.length ≤ r.orders.length + 1 := by
  rw [length_eq_total, length_eq_total]
  rcases hd.total (w := fun _ => 1) h (fun _ _ _ => le_refl _) with hle | ⟨o, -, hle⟩
  · omega
  · omega

/-- An order's share of its account's notional. -/
theorem mem_notional (ho : o ∈ r.orders) : o.price * o.qty ≤ r.notional o.account := by
  have hm : weigh o.account o ∈ r.orders.map (weigh o.account) := List.mem_map_of_mem ho
  have := List.single_le_sum (l := r.orders.map (weigh o.account)) (fun x _ => Nat.zero_le x) _ hm
  rw [notional_eq_total]
  simpa [weigh, Ref.total] using this

end Ref

end MatchingEngine
