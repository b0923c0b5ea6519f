import MatchingEngine.Ref.WellFormed

/-!
# Matching, one resting order at a time

`Ref.sweep` is a fold over the crossing prefix as it stands when the aggressor
arrives. Each turn of the fold meets the first order of the opposite list, so the
fold can be read one order at a time: `WF.sweep_induct` is that reading as an
induction principle, with one case for each thing an aggressor can meet.

* `WF.sweep_wf`: a sweep keeps the state well formed.
* `WF.sweep_matches`: what a sweep emits.
* `WF.sweep_exhausted`: a sweep that has quantity left has no crossing order left.
* `WF.sweep_side`, `WF.sweep_mem`: what a sweep leaves alone.
-/

namespace MatchingEngine

/-- A fill, a print, or a cancel. -/
def Event.isMatch : Event → Bool
  | .filled .. => true
  | .trade .. => true
  | .cancelled .. => true
  | _ => false

namespace Ref

variable {a i : ℕ} {s : Side} {limit : ℕ} {r : Ref} {q : ℕ} {o : Order} {l : List Order}

/-! ### The fold -/

/-- With nothing left to fill, no order is touched. -/
theorem foldl_matchStep_zero (L : List Order) (evs : List Event) :
    L.foldl (matchStep a i s) (r, 0, evs) = (r, 0, evs) := by
  induction L with
  | nil => rfl
  | cons o L ih => simpa [matchStep] using ih

/-- The events before do not matter to a step. -/
theorem matchStep_evs (evs : List Event) :
    matchStep a i s (r, q, evs) o =
      ((matchStep a i s (r, q, []) o).1, (matchStep a i s (r, q, []) o).2.1,
        evs ++ (matchStep a i s (r, q, []) o).2.2) := by
  unfold matchStep
  by_cases hq : q = 0
  · simp [hq]
  · by_cases ha : o.account = a <;> simp [hq, ha]

/-- Nor do they to the steps that follow. -/
theorem foldl_matchStep_evs (L : List Order) (evs : List Event) :
    L.foldl (matchStep a i s) (r, q, evs) =
      ((L.foldl (matchStep a i s) (r, q, [])).1, (L.foldl (matchStep a i s) (r, q, [])).2.1,
        evs ++ (L.foldl (matchStep a i s) (r, q, [])).2.2) := by
  induction L generalizing r q evs with
  | nil => simp
  | cons o L ih =>
    rw [List.foldl_cons, List.foldl_cons, matchStep_evs, ih]
    conv_rhs => rw [show matchStep a i s (r, q, []) o = ((matchStep a i s (r, q, []) o).1,
      (matchStep a i s (r, q, []) o).2.1, (matchStep a i s (r, q, []) o).2.2) from rfl, ih]
    simp

theorem crossing_cons (hc : r.side s.opposite = o :: l) (hx : s.crosses limit o.price) :
    r.crossing s limit = o :: l.takeWhile (fun o => s.crosses limit o.price) := by
  unfold crossing
  rw [hc, List.takeWhile_cons, if_pos (by simpa using hx)]

/-- Nothing is crossed if the best order is not. -/
theorem crossing_eq_nil : r.crossing s limit = [] ↔
    ∀ o l, r.side s.opposite = o :: l → ¬ s.crosses limit o.price := by
  unfold crossing
  cases hc : r.side s.opposite with
  | nil => simp
  | cons o l =>
    constructor
    · intro h o' l' he
      simp only [List.cons.injEq] at he
      rw [List.takeWhile_cons] at h
      rw [← he.1]
      intro hx
      rw [if_pos (by simpa using hx)] at h
      simp at h
    · intro h
      rw [List.takeWhile_cons, if_neg (by simpa using h o l rfl)]

theorem crossing_ne_nil (h : r.crossing s limit ≠ []) :
    ∃ o l, r.side s.opposite = o :: l ∧ s.crosses limit o.price := by
  by_contra hne
  apply h
  rw [crossing_eq_nil]
  intro o l hc hx
  exact hne ⟨o, l, hc, hx⟩

/-- Matching nothing does nothing. -/
theorem sweep_zero : r.sweep a i s limit 0 = (r, 0, []) := foldl_matchStep_zero _ _

/-- Nor does matching where nothing is crossed. -/
theorem sweep_nil (h : r.crossing s limit = []) : r.sweep a i s limit q = (r, q, []) := by
  unfold sweep
  rw [h]
  rfl

section Equations

variable (h : r.WF) (hc : r.side s.opposite = o :: l) (hx : s.crosses limit o.price)

include h hc in
/-- What is left to cross once the first order is gone. -/
theorem crossing_remove (limit : ℕ) (t : Option ℕ) : Ref.crossing { r.remove s.opposite o with lastTrade := t } s limit =
    l.takeWhile (fun o => s.crosses limit o.price) := by
  unfold crossing
  rw [withTrade_side, h.remove_head hc]

include h hc hx in
/-- An own order is cancelled and takes nothing from the aggressor. -/
theorem sweep_own (hq : 0 < q) (ha : o.account = a) :
    r.sweep a i s limit q =
      (((r.remove s.opposite o).sweep a i s limit q).1, ((r.remove s.opposite o).sweep a i s limit q).2.1,
        .cancelled o.account o.id :: ((r.remove s.opposite o).sweep a i s limit q).2.2) := by
  have hrem := crossing_remove h hc limit (r.remove s.opposite o).lastTrade
  unfold sweep
  rw [crossing_cons hc hx, hrem, List.foldl_cons]
  have hstep : matchStep a i s (r, q, []) o = (r.remove s.opposite o, q, [.cancelled o.account o.id]) := by
    simp [matchStep, hq.ne', ha]
  rw [hstep, foldl_matchStep_evs]
  rfl

include h hc hx in
/-- A foreign order no larger than the aggressor is filled and gone. -/
theorem sweep_fill (hq : 0 < q) (ha : o.account ≠ a) (hle : o.qty ≤ q) :
    r.sweep a i s limit q =
      ((Ref.sweep { r.remove s.opposite o with lastTrade := some o.price } a i s limit (q - o.qty)).1,
        (Ref.sweep { r.remove s.opposite o with lastTrade := some o.price } a i s limit (q - o.qty)).2.1,
        fillEvents a i s o o.qty (q - o.qty) ++
          (Ref.sweep { r.remove s.opposite o with lastTrade := some o.price } a i s limit (q - o.qty)).2.2) := by
  have hrem := crossing_remove h hc limit (some o.price)
  unfold sweep
  rw [crossing_cons hc hx, hrem, List.foldl_cons]
  have hstep : matchStep a i s (r, q, []) o =
      ({ r.remove s.opposite o with lastTrade := some o.price }, q - o.qty, fillEvents a i s o o.qty (q - o.qty)) := by
    simp [matchStep, hq.ne', ha, Nat.min_eq_right hle]
  rw [hstep, foldl_matchStep_evs]

include hc hx in
/-- A larger foreign order is filled in part, and the aggressor is done. -/
theorem sweep_part (hq : 0 < q) (ha : o.account ≠ a) (hlt : q < o.qty) :
    r.sweep a i s limit q =
      ({ r.setQty s.opposite o.key (o.qty - q) with lastTrade := some o.price }, 0, fillEvents a i s o q 0) := by
  unfold sweep
  rw [crossing_cons hc hx, List.foldl_cons]
  have hstep : matchStep a i s (r, q, []) o =
      ({ r.setQty s.opposite o.key (o.qty - q) with lastTrade := some o.price }, 0, fillEvents a i s o q 0) := by
    simp [matchStep, hq.ne', ha, Nat.min_eq_left hlt.le, hlt.ne]
  rw [hstep, foldl_matchStep_zero]

end Equations

/-- **Induction along a sweep**: nothing more to match, an own order, a foreign order filled whole,
a foreign order filled in part. -/
theorem WF.sweep_induct {motive : Ref → ℕ → Ref × ℕ × List Event → Prop} (a i : ℕ) (s : Side) (limit : ℕ)
    (stop : ∀ r q, r.WF → (q = 0 ∨ r.crossing s limit = []) → motive r q (r, q, []))
    (own : ∀ r q o l r' q' evs, r.WF → r.side s.opposite = o :: l → s.crosses limit o.price → 0 < q →
      o.account = a → motive (r.remove s.opposite o) q (r', q', evs) →
      motive r q (r', q', .cancelled o.account o.id :: evs))
    (fill : ∀ r q o l r' q' evs, r.WF → r.side s.opposite = o :: l → s.crosses limit o.price → 0 < q →
      o.account ≠ a → o.qty ≤ q →
      motive { r.remove s.opposite o with lastTrade := some o.price } (q - o.qty) (r', q', evs) →
      motive r q (r', q', fillEvents a i s o o.qty (q - o.qty) ++ evs))
    (part : ∀ r q o l, r.WF → r.side s.opposite = o :: l → s.crosses limit o.price → 0 < q →
      o.account ≠ a → q < o.qty →
      motive r q ({ r.setQty s.opposite o.key (o.qty - q) with lastTrade := some o.price }, 0,
        fillEvents a i s o q 0))
    (h : r.WF) (q : ℕ) : motive r q (r.sweep a i s limit q) := by
  -- on the opposite list: every case but the last shortens it
  generalize hL : r.side s.opposite = L
  induction L generalizing r q with
  | nil =>
    have hnil : r.crossing s limit = [] := by simp [crossing, hL]
    rw [sweep_nil hnil]
    exact stop r q h (Or.inr hnil)
  | cons o l ih =>
    have ho : o ∈ r.side s.opposite := by rw [hL]; simp
    by_cases hq : q = 0
    · rw [hq, sweep_zero]
      exact stop r 0 h (Or.inl rfl)
    have hq' : 0 < q := by omega
    by_cases hx : s.crosses limit o.price
    · by_cases ha : o.account = a
      · rw [sweep_own h hL hx hq' ha]
        exact own r q o l _ _ _ h hL hx hq' ha (ih (h.remove ho) q (h.remove_head hL))
      · by_cases hle : o.qty ≤ q
        · rw [sweep_fill h hL hx hq' ha hle]
          refine fill r q o l _ _ _ h hL hx hq' ha hle (ih ((h.remove ho).withTrade _) _ ?_)
          rw [withTrade_side, h.remove_head hL]
        · rw [sweep_part hL hx hq' ha (by omega)]
          exact part r q o l h hL hx hq' ha (by omega)
    · have hnil : r.crossing s limit = [] := by
        rw [crossing_eq_nil]
        intro o' l' he
        rw [hL, List.cons.injEq] at he
        rw [← he.1]
        exact hx
      rw [sweep_nil hnil]
      exact stop r q h (Or.inr hnil)

/-! ### What a sweep does to the state -/

theorem mem_of_cons (hc : r.side s = o :: l) : o ∈ r.side s := by
  rw [hc]
  exact List.mem_cons_self

theorem WF.sweep_wf (h : r.WF) : (r.sweep a i s limit q).1.WF := by
  refine h.sweep_induct (motive := fun _ _ res => res.1.WF) a i s limit ?_ ?_ ?_ ?_ q
  · intro r q h _; exact h
  · intro r q o l r' q' evs _ _ _ _ _ ih; exact ih
  · intro r q o l r' q' evs _ _ _ _ _ _ ih; exact ih
  · intro r q o l h hc _ _ _ hlt
    exact (h.setQty (mem_of_cons hc) (by omega)).withTrade _

/-- What a sweep emits: fills, prints, and cancels of own orders. -/
theorem WF.sweep_matches (h : r.WF) (a i : ℕ) (s : Side) (limit q : ℕ) :
    ∀ ev ∈ (r.sweep a i s limit q).2.2, ev.isMatch = true := by
  refine h.sweep_induct (motive := fun _ _ res => ∀ ev ∈ res.2.2, ev.isMatch = true) a i s limit ?_ ?_ ?_ ?_ q
  · intro r q _ _ ev hev
    exact absurd hev List.not_mem_nil
  · intro r q o l r' q' evs _ _ _ _ _ ih
    exact List.forall_mem_cons.2 ⟨rfl, ih⟩
  · intro r q o l r' q' evs _ _ _ _ _ _ ih
    exact List.forall_mem_cons.2 ⟨rfl, List.forall_mem_cons.2 ⟨rfl, List.forall_mem_cons.2 ⟨rfl, ih⟩⟩⟩
  · intro r q o l _ _ _ _ _ _ ev hev
    simp only [fillEvents, List.mem_cons, List.not_mem_nil, or_false] at hev
    rcases hev with rfl | rfl | rfl <;> rfl

/-- **A sweep with quantity left has no crossing order left.** -/
theorem WF.sweep_exhausted (h : r.WF) (hq : 0 < (r.sweep a i s limit q).2.1) :
    (r.sweep a i s limit q).1.crossing s limit = [] := by
  revert hq
  refine h.sweep_induct (motive := fun _ _ res => 0 < res.2.1 → res.1.crossing s limit = []) a i s limit ?_ ?_ ?_ ?_ q
  · rintro r q _ (rfl | hnil) hq
    · exact absurd hq (by simp)
    · exact hnil
  · intro r q o l r' q' evs _ _ _ _ _ ih; exact ih
  · intro r q o l r' q' evs _ _ _ _ _ _ ih; exact ih
  · intro r q o l _ _ _ _ _ _ hq
    exact absurd hq (by simp)

/-- No more remains than was submitted. -/
theorem WF.sweep_le (h : r.WF) : (r.sweep a i s limit q).2.1 ≤ q := by
  refine h.sweep_induct (motive := fun _ q res => res.2.1 ≤ q) a i s limit ?_ ?_ ?_ ?_ q
  · intro r q _ _; exact le_refl q
  · intro r q o l r' q' evs _ _ _ _ _ ih; exact ih
  · intro r q o l r' q' evs _ _ _ _ _ _ ih; exact ih.trans (Nat.sub_le _ _)
  · intro r q o l _ _ _ _ _ _; exact Nat.zero_le q

/-- Every order left was there before, under its key and price, with at least that quantity. -/
theorem WF.sweep_mem (h : r.WF) {s' : Side} {o' : Order} (ho : o' ∈ (r.sweep a i s limit q).1.side s') :
    ∃ o ∈ r.side s', o.key = o'.key ∧ o.price = o'.price ∧ o'.qty ≤ o.qty := by
  revert ho
  refine h.sweep_induct (motive := fun r _ res => o' ∈ res.1.side s' →
    ∃ o ∈ r.side s', o.key = o'.key ∧ o.price = o'.price ∧ o'.qty ≤ o.qty) a i s limit ?_ ?_ ?_ ?_ q
  · intro r q _ _ ho
    exact ⟨o', ho, rfl, rfl, le_refl _⟩
  · intro r q o l r' q' evs _ _ _ _ _ ih ho
    obtain ⟨x, hx, hk⟩ := ih ho
    exact ⟨x, (r.remove_side_sublist _ _ _).subset hx, hk⟩
  · intro r q o l r' q' evs _ _ _ _ _ _ ih ho
    obtain ⟨x, hx, hk⟩ := ih ho
    rw [withTrade_side] at hx
    exact ⟨x, (r.remove_side_sublist _ _ _).subset hx, hk⟩
  · intro r q o l h hc _ _ _ _ ho
    rw [withTrade_side] at ho
    by_cases hs : s' = s.opposite
    · subst hs
      rw [h.setQty_head hc] at ho
      rcases List.mem_cons.1 ho with rfl | ho
      · exact ⟨o, mem_of_cons hc, rfl, rfl, Nat.sub_le _ _⟩
      · exact ⟨o', by rw [hc]; exact List.mem_cons_of_mem _ ho, rfl, rfl, le_refl _⟩
    · rw [setQty_side_ne _ _ _ hs] at ho
      exact ⟨o', ho, rfl, rfl, le_refl _⟩

/-- A sweep brings no key in. -/
theorem WF.sweep_find (h : r.WF) {k : Key} (hk : r.find k = none) : (r.sweep a i s limit q).1.find k = none := by
  rw [find_eq_none] at hk ⊢
  intro o ho
  obtain ⟨s', ho⟩ := ((r.sweep a i s limit q).1.mem_orders o).1 ho
  obtain ⟨x, hx, hxk, -⟩ := h.sweep_mem ho
  rw [← hxk]
  exact hk x (r.side_sub_orders s' x hx)

/-- **A sweep trades the foreign crossing depth**, as far as its quantity goes. -/
theorem WF.sweep_remaining (h : r.WF) : (r.sweep a i s limit q).2.1 = q - r.foreignDepth a s limit := by
  refine h.sweep_induct (motive := fun r q res => res.2.1 = q - r.foreignDepth a s limit) a i s limit ?_ ?_ ?_ ?_ q
  · rintro r q _ (rfl | hnil)
    · simp
    · simp [foreignDepth, hnil]
  · intro r q o l r' q' evs h hc hx _ ha ih
    have hdepth : (r.remove s.opposite o).foreignDepth a s limit = r.foreignDepth a s limit := by
      unfold foreignDepth
      rw [crossing_cons hc hx, List.filter_cons_of_neg (by simpa using ha)]
      rw [show (r.remove s.opposite o).crossing s limit = l.takeWhile (fun o => s.crosses limit o.price) from
        crossing_remove h hc limit (r.remove s.opposite o).lastTrade]
    rw [← hdepth]
    exact ih
  · intro r q o l r' q' evs h hc hx _ ha hle ih
    have hdepth : r.foreignDepth a s limit =
        o.qty + Ref.foreignDepth { r.remove s.opposite o with lastTrade := some o.price } a s limit := by
      unfold foreignDepth
      rw [crossing_cons hc hx, List.filter_cons_of_pos (by simpa using ha), List.map_cons, List.sum_cons,
        crossing_remove h hc]
    rw [hdepth]
    simp only at ih ⊢
    omega
  · intro r q o l _ hc hx _ ha hlt
    have hdepth : o.qty ≤ r.foreignDepth a s limit := by
      unfold foreignDepth
      rw [crossing_cons hc hx, List.filter_cons_of_pos (by simpa using ha), List.map_cons, List.sum_cons]
      omega
    simp only
    omega

/-- Enough foreign depth fills the aggressor. -/
theorem WF.sweep_fillable (h : r.WF) (hq : q ≤ r.foreignDepth a s limit) : (r.sweep a i s limit q).2.1 = 0 := by
  rw [h.sweep_remaining]
  omega

/-! ### The PostOnly check -/

/-- The state without the own crossing orders ahead of the first foreign one. -/
def clearOwn (r : Ref) (a : ℕ) (s : Side) (limit : ℕ) : Ref :=
  (r.ownPrefix a s limit).foldl (fun r o => r.remove s.opposite o) r

/-- The ids of the own orders a PostOnly order cancels. -/
theorem ownPrefix_cancelled (r : Ref) (a : ℕ) (s : Side) (p : ℕ) :
    (r.ownPrefix a s p).map (fun o => Event.cancelled o.account o.id) =
      ((r.ownPrefix a s p).map Order.id).map (fun id => .cancelled a id) := by
  rw [List.map_map]
  refine List.map_congr_left fun o ho => ?_
  have hown : o.account = a := by simpa using List.mem_takeWhile_imp ho
  rw [hown]
  rfl

/-- The best order takes its turn first, and the others are crossed as before. -/
theorem WF.crossing_head (h : r.WF) (hc : r.side s.opposite = o :: l) (hx : s.crosses limit o.price) :
    r.crossing s limit = o :: (r.remove s.opposite o).crossing s limit := by
  rw [crossing_cons hc hx]
  unfold crossing
  rw [h.remove_head hc]

/-- **Induction along the PostOnly check.** -/
theorem WF.clear_induct {motive : Ref → Ref → List Order → Prop} (a : ℕ) (s : Side) (limit : ℕ)
    (stop : ∀ r, r.WF → (∀ o l, r.side s.opposite = o :: l → s.crosses limit o.price → o.account ≠ a) →
      motive r r [])
    (own : ∀ r o l r' own, r.WF → r.side s.opposite = o :: l → s.crosses limit o.price → o.account = a →
      motive (r.remove s.opposite o) r' own → motive r r' (o :: own))
    (h : r.WF) : motive r (r.clearOwn a s limit) (r.ownPrefix a s limit) := by
  generalize hL : r.side s.opposite = L
  induction L generalizing r with
  | nil =>
    have hnil : r.ownPrefix a s limit = [] := by simp [ownPrefix, crossing, hL]
    unfold clearOwn
    rw [hnil]
    exact stop r h (fun o l he => by rw [hL] at he; simp at he)
  | cons o l ih =>
    by_cases hown : s.crosses limit o.price ∧ o.account = a
    · obtain ⟨hx, ha⟩ := hown
      have hpre : r.ownPrefix a s limit = o :: (r.remove s.opposite o).ownPrefix a s limit := by
        unfold ownPrefix
        rw [h.crossing_head hL hx, List.takeWhile_cons, if_pos (by simpa using ha)]
      unfold clearOwn
      rw [hpre]
      exact own r o l _ _ h hL hx ha (ih (h.remove (mem_of_cons hL)) (h.remove_head hL))
    · have hfor : ∀ o' l', r.side s.opposite = o' :: l' → s.crosses limit o'.price → o'.account ≠ a := by
        intro o' l' he hx ha
        rw [hL, List.cons.injEq] at he
        exact hown (he.1 ▸ ⟨hx, ha⟩)
      have hnil : r.ownPrefix a s limit = [] := by
        unfold ownPrefix
        by_cases hx : s.crosses limit o.price
        · rw [h.crossing_head hL hx, List.takeWhile_cons, if_neg (by simpa using hfor o l hL hx)]
        · have : r.crossing s limit = [] := by
            rw [crossing_eq_nil]
            intro o' l' he
            rw [hL, List.cons.injEq] at he
            exact he.1 ▸ hx
          rw [this]
          rfl
      unfold clearOwn
      rw [hnil]
      exact stop r h hfor

theorem WF.clear_wf (h : r.WF) : (r.clearOwn a s limit).WF := by
  refine h.clear_induct (motive := fun _ r' _ => r'.WF) a s limit ?_ ?_
  · intro r h _; exact h
  · intro r o l r' own _ _ _ _ ih; exact ih

/-- Clearing own orders leaves the others in order. -/
theorem WF.clear_sublist (h : r.WF) (s' : Side) : ((r.clearOwn a s limit).side s').Sublist (r.side s') := by
  refine h.clear_induct (motive := fun r r' _ => (r'.side s').Sublist (r.side s')) a s limit ?_ ?_
  · intro r _ _; exact List.Sublist.refl _
  · intro r o l r' own _ _ _ _ ih
    exact ih.trans (r.remove_side_sublist _ _ _)

/-- **Without a foreign crossing order, clearing leaves no crossing order.** -/
theorem WF.clear_exhausted (h : r.WF) (hno : ¬ ∃ o ∈ r.crossing s limit, o.account ≠ a) :
    (r.clearOwn a s limit).crossing s limit = [] := by
  revert hno
  refine h.clear_induct (motive := fun r r' _ => (¬ ∃ o ∈ r.crossing s limit, o.account ≠ a) →
    r'.crossing s limit = []) a s limit ?_ ?_
  · intro r _ hfor hno
    by_contra hne
    obtain ⟨o, l, hc, hx⟩ := crossing_ne_nil hne
    exact hno ⟨o, by rw [crossing_cons hc hx]; simp, hfor o l hc hx⟩
  · intro r o l r' own h hc hx _ ih hno
    apply ih
    rintro ⟨o', ho', ha'⟩
    exact hno ⟨o', by rw [h.crossing_head hc hx]; exact List.mem_cons_of_mem _ ho', ha'⟩

/-- A key that was free stays free. -/
theorem WF.clear_find (h : r.WF) {k : Key} (hk : r.find k = none) : (r.clearOwn a s limit).find k = none := by
  rw [find_eq_none] at hk ⊢
  intro o ho
  obtain ⟨s', ho⟩ := ((r.clearOwn a s limit).mem_orders o).1 ho
  exact hk o (r.side_sub_orders s' o ((h.clear_sublist s').subset ho))

end Ref

end MatchingEngine
