import MatchingEngine.Ref.Sweep

/-!
# What one command can do

`Did r c r' evs` lists the ways a command can end on the reference state `r`: it is
refused, a new order is matched and maybe rests, a PostOnly order rests or would
cross, an order is amended in place, requeued or cancelled, an account is emptied.

* `did`: every command does one of these.
* `Did.wf`: all of them keep the state well formed.
* `Did.origin`: an order that rests afterwards rested before, or is the command's own.
-/

namespace MatchingEngine

/-- Events that report no change of a resting order. -/
def Event.Quiet : Event → Prop
  | .rejected _ _ _ => True
  | .bookUpdate _ _ => True
  | .snapshotLevel _ _ _ _ => True
  | .snapshotAccount _ _ _ => True
  | .snapshotSummary _ _ _ _ _ => True
  | _ => False

namespace Ref

/-- The resting order a command may bring: its key, its price and at most its quantity. An amend
brings one only if it names a resting order and keeps it from staying in place. -/
def Brings (r : Ref) : Command → Order → Prop
  | .newOrder a i _ p q k t _, o => k = .limit ∧ (t = .gtc ∨ t = .postOnly) ∧ r.find (a, i) = none ∧
      o.key = (a, i) ∧ o.price = p ∧ o.qty ≤ q
  | .cancelReplace a i p q, o => (∃ s x, r.find (a, i) = some (s, x) ∧ ¬ (p = x.price ∧ q ≤ x.qty)) ∧
      o.key = (a, i) ∧ o.price = p ∧ o.qty ≤ q
  | _, _ => False

/-- The limit an order sweeps with: a market order has none. -/
def limitOf (k : OrderKind) (s : Side) (p : ℕ) : ℕ :=
  match k with
  | .limit => p
  | .market => match s with
    | .buy => u64Max
    | .sell => 0

/-- **What a command does** to the state, with the events it emits. -/
inductive Did (r : Ref) : Command → Ref → List Event → Prop
  /-- Refused, or nothing to do. -/
  | idle {c : Command} {evs : List Event} (quiet : ∀ ev ∈ evs, ev.Quiet)
      (told : (∃ a i reason, evs = [.rejected a i reason]) ∨ c = .snapshot ∨ ∃ engaged, c = .killSwitch engaged) :
      Did r c r evs
  /-- A new order is matched; what is left rests or is discarded. -/
  | entered {a i : ℕ} {s : Side} {p q : ℕ} {k : OrderKind} {t : Tif} {ts : ℕ} (limit : ℕ) (rests : Bool)
      (fresh : r.find (a, i) = none) (own : rests = true → k = .limit ∧ t = .gtc ∧ limit = p)
      (bound : limit = limitOf k s p) (drops : rests = false → ¬ (k = .limit ∧ (t = .gtc ∨ t = .postOnly))) :
      Did r (.newOrder a i s p q k t ts)
        (if rests then (r.sweep a i s limit q).1.restRemainder a i s p (r.sweep a i s limit q).2.1
          else (r.sweep a i s limit q).1)
        ((r.sweep a i s limit q).2.2 ++ [.accepted a i (if rests then (r.sweep a i s limit q).2.1 else 0)])
  /-- A PostOnly order rests. -/
  | posted {a i : ℕ} {s : Side} {p q ts : ℕ} (fresh : r.find (a, i) = none)
      (clear : ¬ ∃ o ∈ r.crossing s p, o.account ≠ a) :
      Did r (.newOrder a i s p q .limit .postOnly ts) ((r.clearOwn a s p).rest s ⟨a, i, p, q⟩)
        ((r.ownPrefix a s p).map (fun o => .cancelled o.account o.id) ++ [.accepted a i q])
  /-- A PostOnly order would cross: own orders ahead of the foreign one are gone all the same. -/
  | refused {a i : ℕ} {s : Side} {p q ts : ℕ} (fresh : r.find (a, i) = none) :
      Did r (.newOrder a i s p q .limit .postOnly ts) (r.clearOwn a s p)
        ((r.ownPrefix a s p).map (fun o => .cancelled o.account o.id) ++ [.rejected a i .wouldCross])
  /-- Quantity down at the same price: in place. -/
  | amended {a i q : ℕ} {s : Side} {o : Order} (found : r.find (a, i) = some (s, o)) (pos : 0 < q)
      (le : q ≤ o.qty) :
      Did r (.cancelReplace a i o.price q) (r.setQty s o.key q) [.replaced a i q true]
  /-- Any other amend goes out, through the opposite side, and back. -/
  | requeued {a i p q : ℕ} {s : Side} {o : Order} (found : r.find (a, i) = some (s, o)) (pos : 0 < q)
      (changes : ¬ (p = o.price ∧ q ≤ o.qty)) :
      Did r (.cancelReplace a i p q)
        (((r.remove s o).sweep a i s p q).1.restRemainder a i s p ((r.remove s o).sweep a i s p q).2.1)
        (.replaced a i q false :: ((r.remove s o).sweep a i s p q).2.2)
  | cancelled {a i : ℕ} {s : Side} {o : Order} (found : r.find (a, i) = some (s, o)) :
      Did r (.cancelOrder a i) (r.remove s o) [.cancelled a i]
  | emptied {a : ℕ} : Did r (.massCancel a) (r.massCancel a).1 (r.massCancel a).2

/-- A rejection does nothing. -/
theorem Did.rejected {r : Ref} {c : Command} {a i : ℕ} {reason : RejectReason} :
    Did r c r [.rejected a i reason] :=
  .idle (by simp [Event.Quiet]) (Or.inl ⟨a, i, reason, rfl⟩)

/-- The duplicate check. -/
theorem did_unlessDuplicate {r : Ref} {c : Command} {a i : ℕ} {res : Ref × List Event}
    (h : r.find (a, i) = none → Did r c res.1 res.2) :
    Did r c (r.unlessDuplicate a i res).1 (r.unlessDuplicate a i res).2 := by
  unfold unlessDuplicate
  cases hf : r.find (a, i) with
  | none => exact h hf
  | some e => exact Did.rejected

/-- **Every command does one of these.** -/
theorem did (P : Profile) (r : Ref) (c : Command) : Did r c (r.dispatch P c).1 (r.dispatch P c).2 := by
  cases c with
  | newOrder a i s p q k t ts =>
    cases k with
    | market =>
      exact did_unlessDuplicate (fun hf => .entered _ false hf (by simp) rfl (by simp))
    | limit =>
      cases t with
      | gtc => exact did_unlessDuplicate (fun hf => .entered p true hf (fun _ => ⟨rfl, rfl, rfl⟩) rfl (by simp))
      | ioc => exact did_unlessDuplicate (fun hf => .entered p false hf (by simp) rfl (by simp))
      | fok =>
        refine did_unlessDuplicate (fun hf => ?_)
        by_cases hq : q ≤ r.foreignDepth a s p
        · rw [if_pos hq]
          exact .entered p false hf (by simp) rfl (by simp)
        · rw [if_neg hq]
          exact .rejected
      | postOnly =>
        refine did_unlessDuplicate (fun hf => ?_)
        by_cases hex : ∃ o ∈ r.crossing s p, o.account ≠ a
        · rw [if_pos hex]
          exact .refused hf
        · rw [if_neg hex]
          exact .posted hf hex
  | cancelOrder a i =>
    show Did r _ (r.cancel a i).1 (r.cancel a i).2
    unfold cancel
    cases hf : r.find (a, i) with
    | none => exact .rejected
    | some e => exact .cancelled hf
  | cancelReplace a i p q =>
    show Did r _ (r.modify a i p q).1 (r.modify a i p q).2
    unfold modify
    -- the source checks the quantity before it looks the order up
    by_cases hq : q = 0
    · rw [if_pos hq]
      exact .rejected
    rw [if_neg hq]
    have hpos : 0 < q := by omega
    cases hf : r.find (a, i) with
    | none => exact .rejected
    | some e =>
      obtain ⟨s, o⟩ := e
      by_cases hk : p = o.price ∧ q ≤ o.qty
      · simp only [if_pos hk]
        rw [hk.1]
        exact .amended hf hpos hk.2
      · simp only [if_neg hk]
        exact .requeued hf hpos hk
  | massCancel a => exact .emptied
  | killSwitch b => exact .idle (by simp [dispatch]) (Or.inr (Or.inr ⟨b, rfl⟩))
  | snapshot =>
    refine .idle ?_ (Or.inr (Or.inl rfl))
    intro ev hev
    simp only [dispatch, snapshot, snapshotLevels, List.mem_append, List.mem_map, List.mem_singleton] at hev
    rcases hev with ((⟨p, -, rfl⟩ | ⟨p, -, rfl⟩) | ⟨a, -, rfl⟩) | rfl <;> trivial

/-- The events of a command, and a top-of-book update if the top has changed. -/
theorem apply_emits (P : Profile) (r : Ref) (c : Command) :
    (r.apply P c).2 = (r.dispatch P c).2 ∨ ∃ bid ask, (r.apply P c).2 = (r.dispatch P c).2 ++ [.bookUpdate bid ask] := by
  unfold apply
  simp only
  split
  · exact Or.inr ⟨_, _, rfl⟩
  · exact Or.inl rfl

/-- An observer that takes no notice of the top-of-book update. -/
theorem foldl_apply {β : Type*} {f : β → Event → β} (hf : ∀ m bid ask, f m (.bookUpdate bid ask) = m) (P : Profile)
    (r : Ref) (c : Command) (m : β) : (r.apply P c).2.foldl f m = (r.dispatch P c).2.foldl f m := by
  rcases r.apply_emits P c with he | ⟨bid, ask, he⟩
  · rw [he]
  · rw [he, List.foldl_append]
    exact hf _ bid ask

/-! ### Mass cancel -/

variable {r : Ref}

/-- Removing a key cuts it out of both sides. -/
theorem WF.removeKey_side (h : r.WF) (k : Key) (s : Side) :
    (r.removeKey k).side s = (r.side s).filter (fun o => o.key ≠ k) := by
  unfold removeKey
  have hself : ∀ s, (∀ o ∈ r.side s, o.key ≠ k) → (r.side s).filter (fun o => o.key ≠ k) = r.side s := by
    intro s hs
    rw [List.filter_eq_self]
    intro o ho
    simpa using hs o ho
  cases hf : r.find k with
  | none =>
    rw [hself s (fun o ho => find_eq_none.1 hf o (r.side_sub_orders s o ho))]
  | some e =>
    obtain ⟨s', o⟩ := e
    obtain ⟨ho, hk⟩ := find_some hf
    simp only
    by_cases hs : s = s'
    · rw [hs, remove_side_self, hk]
    · rw [remove_side_ne _ _ hs, hself s]
      intro o' ho' hk'
      exact hs (h.side_disjoint ho' ho (hk'.trans hk.symm))

theorem WF.removeKey (h : r.WF) (k : Key) : (r.removeKey k).WF := by
  unfold Ref.removeKey
  cases hf : r.find k with
  | none => exact h
  | some e => exact h.remove (find_some hf).1

theorem removeKey_lastTrade (r : Ref) (k : Key) : (r.removeKey k).lastTrade = r.lastTrade := by
  unfold removeKey
  cases r.find k with
  | none => rfl
  | some e => exact remove_lastTrade _ _ _

/-- By induction along the ids: taking them out keeps the state well formed and the others in order. -/
theorem WF.foldl_removeKey (h : r.WF) (a : ℕ) (ids : List ℕ) :
    (ids.foldl (fun r id => r.removeKey (a, id)) r).WF ∧
      (ids.foldl (fun r id => r.removeKey (a, id)) r).lastTrade = r.lastTrade ∧
      ∀ s, (ids.foldl (fun r id => r.removeKey (a, id)) r).side s =
        (r.side s).filter (fun o => ¬ (o.account = a ∧ o.id ∈ ids)) := by
  induction ids generalizing r with
  | nil => exact ⟨h, rfl, fun s => by simp⟩
  | cons i ids ih =>
    obtain ⟨h1, h2, h3⟩ := ih (h.removeKey (a, i))
    refine ⟨h1, h2.trans (removeKey_lastTrade _ _), fun s => ?_⟩
    rw [List.foldl_cons, h3, h.removeKey_side, List.filter_filter]
    apply List.filter_congr
    intro o _
    rw [Bool.eq_iff_iff]
    simp only [Bool.and_eq_true, decide_eq_true_eq, List.mem_cons, Order.key, ne_eq, Prod.mk.injEq]
    tauto

/-- **Mass cancel takes out the account's orders and no others.** -/
theorem WF.massCancel_side (h : r.WF) (a : ℕ) (s : Side) :
    (r.massCancel a).1.side s = (r.side s).filter (fun o => o.account ≠ a) := by
  rw [show (r.massCancel a).1 = (r.slots a).foldl (fun r id => r.removeKey (a, id)) r from rfl,
    (h.foldl_removeKey a (r.slots a)).2.2]
  apply List.filter_congr
  intro o ho
  have hm : o.account = a → o.id ∈ r.slots a := fun ha =>
    (h.slots_mem a o.id).2 ⟨o, r.side_sub_orders s o ho, by rw [← ha]; rfl⟩
  rw [Bool.eq_iff_iff]
  simp only [decide_eq_true_eq, ne_eq]
  tauto

/-! ### What every case keeps -/

variable {c : Command} {r' : Ref} {evs : List Event}

/-- An order that was taken out is not found. -/
theorem WF.find_remove (h : r.WF) {k : Key} {s : Side} {o : Order} (hf : r.find k = some (s, o)) :
    (r.remove s o).find k = none := by
  obtain ⟨ho, hk⟩ := find_some hf
  rw [find_eq_none]
  intro o' ho'
  rw [← hk]
  exact ((h.mem_remove ho).1 ho').2

theorem WF.restRemainder (h : r.WF) {a i : ℕ} {s : Side} {p q : ℕ} (hf : r.find (a, i) = none) :
    (r.restRemainder a i s p q).WF := by
  unfold Ref.restRemainder
  split
  · rename_i hq
    exact h.rest hf hq
  · exact h

/-- **Every command keeps the state well formed.** -/
theorem Did.wf {P : Profile} (hd : Did r c r' evs) (h : r.WF) (hc : c.Checked P) : r'.WF := by
  cases hd with
  | idle _ => exact h
  | entered limit rests fresh own =>
    split
    · exact h.sweep_wf.restRemainder (h.sweep_find fresh)
    · exact h.sweep_wf
  | posted fresh clear => exact h.clear_wf.rest (h.clear_find fresh) (Nat.pos_of_ne_zero hc.1)
  | refused fresh => exact h.clear_wf
  | amended found pos le => exact h.setQty (find_some found).1 pos
  | requeued found pos changes =>
    have h1 := h.remove (find_some found).1
    exact h1.sweep_wf.restRemainder (h1.sweep_find (h.find_remove found))
  | cancelled found => exact h.remove (find_some found).1
  | emptied => exact (h.foldl_removeKey _ _).1

/-- What rests then rested before, or is the remainder. -/
theorem mem_restRemainder {a i : ℕ} {s s' : Side} {p q : ℕ} {o : Order}
    (ho : o ∈ (r.restRemainder a i s p q).side s') : o ∈ r.side s' ∨ (s' = s ∧ 0 < q ∧ o = ⟨a, i, p, q⟩) := by
  unfold restRemainder at ho
  split at ho
  · rename_i hq
    rw [rest_side] at ho
    by_cases hs : s' = s
    · rw [if_pos hs, mem_insertBack] at ho
      rcases ho with ho | ho
      · exact Or.inr ⟨hs, hq, ho⟩
      · exact Or.inl (hs ▸ ho)
    · rw [if_neg hs] at ho
      exact Or.inl ho
  · exact Or.inl ho

/-- **Where resting orders come from**: they rested before, under the same key and price and with at
least that quantity, or the command brought them. -/
theorem Did.origin (hd : Did r c r' evs) (h : r.WF) {s' : Side} {o' : Order} (ho : o' ∈ r'.side s') :
    (∃ o ∈ r.side s', o.key = o'.key ∧ o.price = o'.price ∧ o'.qty ≤ o.qty) ∨ r.Brings c o' := by
  cases hd with
  | idle _ => exact Or.inl ⟨o', ho, rfl, rfl, le_refl _⟩
  | entered limit rests fresh own =>
    split at ho
    · rename_i hr
      rcases mem_restRemainder ho with ho | ⟨-, -, rfl⟩
      · exact Or.inl (h.sweep_mem ho)
      · exact Or.inr ⟨(own hr).1, Or.inl (own hr).2.1, fresh, rfl, rfl, h.sweep_le⟩
    · exact Or.inl (h.sweep_mem ho)
  | @posted a i s p q ts fresh clear =>
    rw [rest_side] at ho
    by_cases hs : s' = s
    · rw [if_pos hs, mem_insertBack] at ho
      rcases ho with rfl | ho
      · exact Or.inr ⟨rfl, Or.inr rfl, fresh, rfl, rfl, le_refl _⟩
      · exact Or.inl ⟨o', (h.clear_sublist s').subset (hs ▸ ho), rfl, rfl, le_refl _⟩
    · rw [if_neg hs] at ho
      exact Or.inl ⟨o', (h.clear_sublist s').subset ho, rfl, rfl, le_refl _⟩
  | refused fresh => exact Or.inl ⟨o', (h.clear_sublist s').subset ho, rfl, rfl, le_refl _⟩
  | @amended a i q s o found pos le =>
    rw [setQty_side] at ho
    by_cases hs : s' = s
    · rw [if_pos hs] at ho
      obtain ⟨x, hx, rfl⟩ := List.mem_map.1 ho
      by_cases hk : x.key = o.key
      · rw [if_pos hk]
        rw [key_inj_of_nodup (h.side_keys s) hx (find_some found).1 hk]
        exact Or.inl ⟨o, hs ▸ (find_some found).1, rfl, rfl, le⟩
      · rw [if_neg hk]
        exact Or.inl ⟨x, hs ▸ hx, rfl, rfl, le_refl _⟩
    · rw [if_neg hs] at ho
      exact Or.inl ⟨o', ho, rfl, rfl, le_refl _⟩
  | requeued found pos changes =>
    have h1 := h.remove (find_some found).1
    rcases mem_restRemainder ho with ho | ⟨-, -, rfl⟩
    · obtain ⟨x, hx, hxo⟩ := h1.sweep_mem ho
      exact Or.inl ⟨x, (r.remove_side_sublist _ _ _).subset hx, hxo⟩
    · exact Or.inr ⟨⟨_, _, found, changes⟩, rfl, rfl, h1.sweep_le⟩
  | cancelled found => exact Or.inl ⟨o', (r.remove_side_sublist _ _ _).subset ho, rfl, rfl, le_refl _⟩
  | emptied =>
    rw [h.massCancel_side] at ho
    exact Or.inl ⟨o', (List.mem_filter.1 ho).1, rfl, rfl, le_refl _⟩

/-- A sweep trades at resting prices only. -/
theorem WF.sweep_lastTrade (h : r.WF) (a i : ℕ) (s : Side) (limit q : ℕ) :
    (r.sweep a i s limit q).1.lastTrade = r.lastTrade ∨
      ∃ o ∈ r.side s.opposite, (r.sweep a i s limit q).1.lastTrade = some o.price := by
  refine h.sweep_induct (motive := fun r _ res => res.1.lastTrade = r.lastTrade ∨
    ∃ o ∈ r.side s.opposite, res.1.lastTrade = some o.price) a i s limit ?_ ?_ ?_ ?_ q
  · intro r q _ _; exact Or.inl rfl
  · intro r q o l r' q' evs _ _ _ _ _ ih
    rcases ih with ih | ⟨x, hx, ih⟩
    · exact Or.inl (ih.trans (remove_lastTrade _ _ _))
    · exact Or.inr ⟨x, (r.remove_side_sublist _ _ _).subset hx, ih⟩
  · intro r q o l r' q' evs _ hc _ _ _ _ ih
    rcases ih with ih | ⟨x, hx, ih⟩
    · exact Or.inr ⟨o, mem_of_cons hc, ih⟩
    · rw [withTrade_side] at hx
      exact Or.inr ⟨x, (r.remove_side_sublist _ _ _).subset hx, ih⟩
  · intro r q o l _ hc _ _ _ _
    exact Or.inr ⟨o, mem_of_cons hc, rfl⟩

theorem restRemainder_lastTrade (r : Ref) (a i : ℕ) (s : Side) (p q : ℕ) :
    (r.restRemainder a i s p q).lastTrade = r.lastTrade := by
  unfold restRemainder
  split
  · exact rest_lastTrade _ _ _
  · rfl

theorem WF.clear_lastTrade (h : r.WF) {a : ℕ} {s : Side} {limit : ℕ} :
    (r.clearOwn a s limit).lastTrade = r.lastTrade := by
  refine h.clear_induct (motive := fun r r' _ => r'.lastTrade = r.lastTrade) a s limit ?_ ?_
  · intro r _ _; rfl
  · intro r o l r' own _ _ _ _ ih
    rw [ih, remove_lastTrade]

/-- **The last trade price is a price that rested.** -/
theorem Did.lastTrade (hd : Did r c r' evs) (h : r.WF) :
    r'.lastTrade = r.lastTrade ∨ ∃ o ∈ r.orders, r'.lastTrade = some o.price := by
  cases hd with
  | idle _ => exact Or.inl rfl
  | @entered a i s p q k t ts limit rests fresh own =>
    have hl : (if rests then (r.sweep a i s limit q).1.restRemainder a i s p (r.sweep a i s limit q).2.1
        else (r.sweep a i s limit q).1).lastTrade = (r.sweep a i s limit q).1.lastTrade := by
      split
      · exact restRemainder_lastTrade _ _ _ _ _ _
      · rfl
    rw [hl]
    rcases h.sweep_lastTrade a i s limit q with ht | ⟨o, ho, ht⟩
    · exact Or.inl ht
    · exact Or.inr ⟨o, r.side_sub_orders _ o ho, ht⟩
  | posted fresh clear => exact Or.inl ((rest_lastTrade _ _ _).trans h.clear_lastTrade)
  | refused fresh => exact Or.inl h.clear_lastTrade
  | amended found pos le => exact Or.inl (setQty_lastTrade _ _ _ _)
  | @requeued a i p q s o found pos changes =>
    have h1 := h.remove (find_some found).1
    rw [restRemainder_lastTrade]
    rcases h1.sweep_lastTrade a i s p q with ht | ⟨x, hx, ht⟩
    · exact Or.inl (ht.trans (remove_lastTrade _ _ _))
    · exact Or.inr ⟨x, r.side_sub_orders _ x ((r.remove_side_sublist _ _ _).subset hx), ht⟩
  | cancelled found => exact Or.inl (remove_lastTrade _ _ _)
  | emptied => exact Or.inl (h.foldl_removeKey _ _).2.1

end Ref

end MatchingEngine
