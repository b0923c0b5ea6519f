import MatchingEngine.Ref.Step

/-!
# The quantity under a key

`qtyOf r k` is the resting quantity of the order under `k`, and what each change of the
state does to it.
-/

namespace MatchingEngine

/-- A quantity, or nothing at zero. -/
def present (q : ℕ) : Option ℕ := if q = 0 then none else some q

namespace Ref

/-- The resting quantity under a key. -/
def qtyOf (r : Ref) (k : Key) : Option ℕ := (r.find k).map (fun e => e.2.qty)

variable {r : Ref} {s : Side} {o : Order} {k : Key}

/-- The quantity is that of the one order with the key. -/
theorem WF.qtyOf_eq (h : r.WF) {q : ℕ} : r.qtyOf k = some q ↔ ∃ o ∈ r.orders, o.key = k ∧ o.qty = q := by
  unfold qtyOf
  rw [Option.map_eq_some_iff]
  constructor
  · rintro ⟨⟨s, o⟩, hf, hq⟩
    obtain ⟨ho, hk⟩ := find_some hf
    exact ⟨o, r.side_sub_orders s o ho, hk, hq⟩
  · rintro ⟨o, ho, rfl, hq⟩
    obtain ⟨s, ho⟩ := (r.mem_orders o).1 ho
    exact ⟨(s, o), h.find_mem ho, hq⟩

/-- No quantity, no order. -/
theorem qtyOf_none : r.qtyOf k = none ↔ r.find k = none := by
  unfold qtyOf
  rw [Option.map_eq_none_iff]

/-- It depends on the orders with the key alone. -/
theorem WF.qtyOf_congr {r' : Ref} (h : r.WF) (h' : r'.WF)
    (hm : ∀ o, o.key = k → (o ∈ r.orders ↔ o ∈ r'.orders)) : r.qtyOf k = r'.qtyOf k := by
  apply Option.ext
  intro q
  rw [h.qtyOf_eq, h'.qtyOf_eq]
  constructor
  · rintro ⟨o, ho, hk, hq⟩
    exact ⟨o, (hm o hk).1 ho, hk, hq⟩
  · rintro ⟨o, ho, hk, hq⟩
    exact ⟨o, (hm o hk).2 ho, hk, hq⟩

/-- An order that is taken out has no quantity any more; the others keep theirs. -/
theorem WF.qtyOf_remove (h : r.WF) (ho : o ∈ r.side s) (k : Key) :
    (r.remove s o).qtyOf k = if k = o.key then none else r.qtyOf k := by
  by_cases hk : k = o.key
  · rw [if_pos hk, qtyOf_none, find_eq_none, hk]
    intro o' ho'
    exact ((h.mem_remove ho).1 ho').2
  · rw [if_neg hk]
    apply (h.remove ho).qtyOf_congr h
    intro o' hk'
    rw [h.mem_remove ho]
    exact ⟨fun hh => hh.1, fun hh => ⟨hh, fun he => hk (hk'.symm.trans he)⟩⟩

theorem WF.qtyOf_removeKey (h : r.WF) (k k' : Key) :
    (r.removeKey k).qtyOf k' = if k' = k then none else r.qtyOf k' := by
  unfold Ref.removeKey
  cases hf : r.find k with
  | none =>
    by_cases hk : k' = k
    · rw [if_pos hk, hk, qtyOf_none]
      exact hf
    · rw [if_neg hk]
  | some e =>
    obtain ⟨ho, hkey⟩ := find_some hf
    rw [h.qtyOf_remove ho, hkey]

theorem WF.qtyOf_setQty (h : r.WF) (ho : o ∈ r.side s) {q : ℕ} (hq : 0 < q) (k : Key) :
    (r.setQty s o.key q).qtyOf k = if k = o.key then some q else r.qtyOf k := by
  have h' := h.setQty ho hq
  by_cases hk : k = o.key
  · rw [if_pos hk, h'.qtyOf_eq]
    exact ⟨{ o with qty := q }, (h.setQty_mem ho q).2 (Or.inr rfl), hk.symm, rfl⟩
  · rw [if_neg hk]
    apply h'.qtyOf_congr h
    intro o' hk'
    rw [h.setQty_mem ho]
    constructor
    · rintro (⟨hm, -⟩ | rfl)
      · exact hm
      · exact absurd hk'.symm hk
    · intro hm
      exact Or.inl ⟨hm, fun he => hk (hk'.symm.trans he)⟩

theorem WF.qtyOf_rest (h : r.WF) (hf : r.find o.key = none) (hq : 0 < o.qty) (k : Key) :
    (r.rest s o).qtyOf k = if k = o.key then some o.qty else r.qtyOf k := by
  have h' : (r.rest s o).WF := h.rest hf hq
  have hm : ∀ x, x ∈ (r.rest s o).orders ↔ x = o ∨ x ∈ r.orders := fun x => by
    rw [(r.rest_orders s o).mem_iff, List.mem_cons]
  by_cases hk : k = o.key
  · rw [if_pos hk, h'.qtyOf_eq]
    exact ⟨o, (hm o).2 (Or.inl rfl), hk.symm, rfl⟩
  · rw [if_neg hk]
    apply h'.qtyOf_congr h
    intro o' hk'
    rw [hm]
    constructor
    · rintro (rfl | hx)
      · exact absurd hk'.symm hk
      · exact hx
    · exact Or.inr

/-- A trade price changes no quantity. -/
theorem qtyOf_withTrade (r : Ref) (t : Option ℕ) : Ref.qtyOf { r with lastTrade := t } k = r.qtyOf k := rfl

/-- A remainder rests if there is any. -/
theorem WF.qtyOf_restRemainder (h : r.WF) {a i p q : ℕ} (hf : r.find (a, i) = none) (k : Key) :
    (r.restRemainder a i s p q).qtyOf k = if k = (a, i) then present q else r.qtyOf k := by
  unfold Ref.restRemainder present
  by_cases hq : q = 0
  · rw [if_neg (by omega), if_pos hq]
    by_cases hk : k = (a, i)
    · rw [if_pos hk, hk, qtyOf_none]
      exact hf
    · rw [if_neg hk]
  · rw [if_pos (by omega), if_neg hq]
    have hq' : 0 < (⟨a, i, p, q⟩ : Order).qty := Nat.pos_of_ne_zero hq
    have hf' : r.find (⟨a, i, p, q⟩ : Order).key = none := hf
    exact h.qtyOf_rest hf' hq' k

end Ref

end MatchingEngine
