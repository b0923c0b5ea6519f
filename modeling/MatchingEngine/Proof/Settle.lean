import MatchingEngine.Core.Ledger
import MatchingEngine.Ref.Quantity
import MatchingEngine.Ref.Total
import MatchingEngine.Proof.Refine

/-!
# The ledger's passes over the events

The ledger reads the events of an operation in two passes, first the cancellations and
then the fills, so what a sweep does is stated for each pass separately (`Settled`): a
maker is either cancelled or filled, never both.

* `consumeCancelled_ok`: the first pass, on any list of events.
* `WF.settled`, `Settled.passes`: both passes over a sweep.
* `Removed.recorded`: operations that only take orders out.
-/

namespace MatchingEngine

/-- The keys an event list cancels, in order. -/
def cancelledKeys (evs : List Event) : List Key :=
  evs.filterMap (fun
    | .cancelled a i => some (a, i)
    | _ => none)

/-- Quantity traded: each `Trade` once. -/
def tradedQty (evs : List Event) : ℕ :=
  (evs.map (fun
    | .trade _ q _ => q
    | _ => 0)).sum

theorem tradedQty_append (evs evs' : List Event) : tradedQty (evs ++ evs') = tradedQty evs + tradedQty evs' := by
  simp [tradedQty]

theorem cancelledKeys_append (evs evs' : List Event) :
    cancelledKeys (evs ++ evs') = cancelledKeys evs ++ cancelledKeys evs' := List.filterMap_append

theorem cancelled_key (o : Order) : Event.cancelled o.account o.id = .cancelled o.key.1 o.key.2 := rfl

/-- A list of cancellations, as `g` writes them. -/
theorem cancelledKeys_map {α : Type*} {g : α → Event} {f : α → Key} (hg : ∀ x, g x = .cancelled (f x).1 (f x).2)
    (l : List α) : cancelledKeys (l.map g) = l.map f := by
  induction l with
  | nil => rfl
  | cons x l ih =>
    rw [List.map_cons, List.map_cons, ← ih, hg]
    rfl

theorem tradedQty_map {α : Type*} {g : α → Event} {f : α → Key} (hg : ∀ x, g x = .cancelled (f x).1 (f x).2)
    (l : List α) : tradedQty (l.map g) = 0 := by
  simp [tradedQty, Function.comp_def, hg]

namespace ConservationModel

variable {m : ConservationModel} {evs : List Event}

/-- The cancellations of an event list, each of a different order the ledger knows. -/
theorem consumeCancelled_ok {f : Key → ℕ} (hnd : (cancelledKeys evs).Nodup)
    (hm : ∀ k ∈ cancelledKeys evs, m.resting.lookup k = some (f k)) :
    ∃ R, m.consumeCancelled evs =
        .ok { m with cancelled := m.cancelled + ((cancelledKeys evs).map f).sum, resting := R } ∧
      ∀ k, R.lookup k = if k ∈ cancelledKeys evs then none else m.resting.lookup k := by
  -- on the events; only a cancellation moves the ledger
  induction evs generalizing m with
  | nil => exact ⟨m.resting, by simp [consumeCancelled, cancelledKeys, pure, Except.pure], fun k => by simp [cancelledKeys]⟩
  | cons ev evs ih =>
    unfold consumeCancelled
    rw [List.foldlM_cons]
    by_cases hev : ∃ a i, ev = .cancelled a i
    · obtain ⟨a, i, rfl⟩ := hev
      have hkeys : cancelledKeys (.cancelled a i :: evs) = (a, i) :: cancelledKeys evs := rfl
      rw [hkeys] at hnd hm ⊢
      rw [List.nodup_cons] at hnd
      have hstep : m.consumeCancelledEvent (.cancelled a i) =
          .ok { m with resting := m.resting.erase (a, i), cancelled := m.cancelled + f (a, i) } := by
        simp only [consumeCancelledEvent, hm (a, i) List.mem_cons_self, expect_some, bind, Except.bind, pure, Except.pure]
      obtain ⟨R, hR, hlook⟩ :=
        ih (m := { m with resting := m.resting.erase (a, i), cancelled := m.cancelled + f (a, i) }) hnd.2 (by
          intro k hk
          have hne : k ≠ (a, i) := fun he => hnd.1 (he ▸ hk)
          rw [lookup_erase_if, if_neg hne]
          exact hm k (List.mem_cons_of_mem _ hk))
      refine ⟨R, ?_, ?_⟩
      · rw [hstep]
        show consumeCancelled _ evs = _
        rw [hR, List.map_cons, List.sum_cons, Nat.add_assoc]
      · intro k
        rw [hlook, lookup_erase_if]
        by_cases hk : k = (a, i)
        · rw [if_pos hk, ite_self, if_pos (show k ∈ (a, i) :: cancelledKeys evs by rw [hk]; exact List.mem_cons_self)]
        · rw [if_neg hk]
          simp only [List.mem_cons, hk, false_or]
    · have hkeys : cancelledKeys (ev :: evs) = cancelledKeys evs := by
        cases ev with
        | cancelled a i => exact absurd ⟨a, i, rfl⟩ hev
        | _ => rfl
      have hstep : m.consumeCancelledEvent ev = .ok m := by
        cases ev with
        | cancelled a i => exact absurd ⟨a, i, rfl⟩ hev
        | _ => rfl
      rw [hkeys] at hnd hm ⊢
      rw [hstep]
      exact ih hnd hm

/-- A list of events without fills. -/
theorem consumeFilledEvent_skip {selfId : Key} {x : ℕ} {ev : Event} (h : ∀ a i s p q v st, ev ≠ .filled a i s p q v st) :
    consumeFilledEvent selfId (m, x) ev = .ok (m, x) := by
  cases ev with
  | filled a i s p q v st => exact absurd rfl (h a i s p q v st)
  | _ => rfl

theorem consumeFilled_skip {selfId : Key} {x : ℕ} (h : ∀ ev ∈ evs, ∀ a i s p q v st, ev ≠ .filled a i s p q v st) :
    evs.foldlM (consumeFilledEvent selfId) (m, x) = .ok (m, x) := by
  induction evs with
  | nil => rfl
  | cons ev evs ih =>
    rw [List.foldlM_cons, consumeFilledEvent_skip (h ev (by simp))]
    exact ih (fun ev hev => h ev (List.mem_cons_of_mem _ hev))

/-- The operation's own fill. -/
theorem consumeFilledEvent_self {a i : ℕ} {s : Side} {p q v : ℕ} {st : FillState} {x : ℕ} :
    consumeFilledEvent (a, i) (m, x) (.filled a i s p q v st) = .ok (m, x + q) := by
  simp only [consumeFilledEvent, if_true]

/-- A maker's fill. -/
theorem consumeFilledEvent_maker {selfId : Key} {a i : ℕ} {s : Side} {p q v : ℕ} {st : FillState} {x entry : ℕ}
    (hne : (a, i) ≠ selfId) (hm : m.resting.lookup (a, i) = some entry) (hle : q ≤ entry) :
    consumeFilledEvent selfId (m, x) (.filled a i s p q v st) =
      .ok ({ m with filled := m.filled + q, resting := if entry - q = 0 then m.resting.erase (a, i)
        else m.resting.insert (a, i) (entry - q) }, x) := by
  simp only [consumeFilledEvent, if_neg hne, hm, expect_some, bind, Except.bind, minus_ok hle, pure, Except.pure]

end ConservationModel

open ConservationModel

namespace Ref

/-- What the ledger makes of a sweep by `selfId` from `r` with quantity `q`: which orders are
cancelled, where the quantity goes, and the fills it takes off the makers. -/
structure Settled (selfId : Key) (r : Ref) (q : ℕ) (r' : Ref) (q' : ℕ) (evs : List Event) : Prop where
  nodup : (cancelledKeys evs).Nodup
  known : ∀ k ∈ cancelledKeys evs, r.find k ≠ none
  gone : ∀ k, r.find k = none ∨ k ∈ cancelledKeys evs → r'.find k = none
  le : q' ≤ q
  total : r.total Order.qty =
    r'.total Order.qty + ((cancelledKeys evs).map (fun k => (r.qtyOf k).getD 0)).sum + (q - q')
  traded : tradedQty evs = q - q'
  clean : isRejected evs = false
  fills : ∀ m x, (∀ k, r.find k ≠ none → k ∉ cancelledKeys evs → m.resting.lookup k = r.qtyOf k) →
    ∃ R, evs.foldlM (consumeFilledEvent selfId) (m, x) =
        .ok ({ m with filled := m.filled + (q - q'), resting := R }, x + (q - q')) ∧
      ∀ k, R.lookup k = if r.find k = none ∨ k ∈ cancelledKeys evs then m.resting.lookup k else r'.qtyOf k

variable {r r' : Ref} {s : Side} {o : Order} {k : Key} {a i : ℕ}

theorem WF.find_remove_iff (h : r.WF) (ho : o ∈ r.side s) : (r.remove s o).find k = none ↔ k = o.key ∨ r.find k = none := by
  rw [← qtyOf_none, h.qtyOf_remove ho, ← qtyOf_none]
  by_cases hk : k = o.key
  · simp [hk]
  · simp [hk]

/-- Keys other than the removed order's keep their quantities. -/
theorem WF.sum_remove (h : r.WF) (ho : o ∈ r.side s) {ks : List Key}
    (hks : ∀ k ∈ ks, (r.remove s o).find k ≠ none) :
    (ks.map (fun k => ((r.remove s o).qtyOf k).getD 0)).sum = (ks.map (fun k => (r.qtyOf k).getD 0)).sum := by
  congr 1
  apply List.map_congr_left
  intro k hk
  have hne : k ≠ o.key := fun he => hks k hk ((h.find_remove_iff ho).2 (Or.inl he))
  rw [h.qtyOf_remove ho, if_neg hne]

theorem WF.qtyOf_self (h : r.WF) (ho : o ∈ r.side s) : r.qtyOf o.key = some o.qty := by
  unfold qtyOf
  rw [h.find_mem ho]
  rfl

/-- The fills of a match against `o`, in the ledger. -/
theorem fillEvents_recorded {m : ConservationModel} {x q v : ℕ} (hne : o.key ≠ (a, i))
    (hm : m.resting.lookup o.key = some o.qty) (hq : q ≤ o.qty) (evs : List Event) :
    (fillEvents a i s o q v ++ evs).foldlM (consumeFilledEvent (a, i)) (m, x) =
      evs.foldlM (consumeFilledEvent (a, i)) ({ m with
        filled := m.filled + q,
        resting := if o.qty - q = 0 then m.resting.erase o.key else m.resting.insert o.key (o.qty - q) }, x + q) := by
  unfold fillEvents
  simp only [List.cons_append, List.nil_append, List.foldlM_cons, consumeFilledEvent_self, bind, Except.bind]
  rw [consumeFilledEvent_maker hne hm hq]
  rfl

theorem cancelledKeys_fillEvents {q v : ℕ} (evs : List Event) :
    cancelledKeys (fillEvents a i s o q v ++ evs) = cancelledKeys evs := rfl

theorem tradedQty_fillEvents {q v : ℕ} (evs : List Event) :
    tradedQty (fillEvents a i s o q v ++ evs) = q + tradedQty evs := by
  simp [tradedQty, fillEvents]

/-- Nothing swept, nothing recorded. -/
theorem Settled.refl (selfId : Key) (r : Ref) (q : ℕ) : Settled selfId r q r q [] := by
  refine ⟨List.nodup_nil, by simp [cancelledKeys], ?_, le_refl q, by simp [cancelledKeys], by simp [tradedQty], rfl, ?_⟩
  · rintro k (hk | hk)
    · exact hk
    · simp [cancelledKeys] at hk
  · intro m x hm
    refine ⟨m.resting, by simp [pure, Except.pure], ?_⟩
    intro k
    by_cases hk : r.find k = none
    · rw [if_pos (Or.inl hk)]
    · have hnil : k ∉ cancelledKeys [] := by simp [cancelledKeys]
      rw [if_neg (by rintro (hh | hh); exacts [hk hh, hnil hh]), hm k hk hnil]

/-- An own order in front goes first, in the pass over the cancellations. -/
theorem WF.settled_cancel (h : r.WF) (ho : o ∈ r.side s) {selfId : Key} {q q' : ℕ} {evs : List Event}
    (hs : Settled selfId (r.remove s o) q r' q' evs) : Settled selfId r q r' q' (.cancelled o.account o.id :: evs) := by
  have hrem := fun k => h.find_remove_iff (k := k) ho
  obtain ⟨hnd, hknown, hgone, hle, htotal, htraded, hclean, hfills⟩ := hs
  have hkeys : cancelledKeys (.cancelled o.account o.id :: evs) = o.key :: cancelledKeys evs := rfl
  -- the order is gone, so it is not cancelled again
  have hfresh : o.key ∉ cancelledKeys evs := fun hk => hknown _ hk ((hrem _).2 (Or.inl rfl))
  refine ⟨?_, ?_, ?_, hle, ?_, by simpa [tradedQty] using htraded, hclean, ?_⟩
  · rw [hkeys]
    exact List.nodup_cons.2 ⟨hfresh, hnd⟩
  · rw [hkeys]
    intro k hk
    rcases List.mem_cons.1 hk with rfl | hk
    · rw [h.find_mem ho]
      simp
    · exact fun hn => hknown k hk ((hrem k).2 (Or.inr hn))
  · rw [hkeys]
    rintro k (hk | hk)
    · exact hgone k (Or.inl ((hrem k).2 (Or.inr hk)))
    · rcases List.mem_cons.1 hk with rfl | hk
      · exact hgone o.key (Or.inl ((hrem _).2 (Or.inl rfl)))
      · exact hgone k (Or.inr hk)
  · have h1 := h.total_remove (w := Order.qty) ho
    rw [h.sum_remove ho hknown] at htotal
    rw [hkeys, List.map_cons, List.sum_cons, h.qtyOf_self ho, Option.getD_some]
    omega
  · intro m x hm
    obtain ⟨R, hR, hlook⟩ := hfills m x (by
      intro k hk hkn
      have hne : k ≠ o.key := fun he => hk ((hrem k).2 (Or.inl he))
      have hk' : r.find k ≠ none := fun hn => hk ((hrem k).2 (Or.inr hn))
      rw [h.qtyOf_remove ho, if_neg hne]
      refine hm k hk' ?_
      rw [hkeys]
      simp only [List.mem_cons, hne, false_or]
      exact hkn)
    refine ⟨R, ?_, ?_⟩
    · rw [List.foldlM_cons]
      exact hR
    · intro k
      rw [hlook, hkeys]
      simp only [hrem, List.mem_cons]
      congr 1
      apply propext
      tauto

/-- A maker filled whole leaves both the ledger and the state. -/
theorem WF.settled_fill (h : r.WF) (ho : o ∈ r.side s.opposite) (hacct : o.account ≠ a) {q q' : ℕ} (hqle : o.qty ≤ q)
    {evs : List Event}
    (hs : Settled (a, i) { r.remove s.opposite o with lastTrade := some o.price } (q - o.qty) r' q' evs) :
    Settled (a, i) r q r' q' (fillEvents a i s o o.qty (q - o.qty) ++ evs) := by
  have hne : o.key ≠ (a, i) := fun he => hacct (Prod.mk.inj he).1
  have hrem : ∀ k, Ref.find { r.remove s.opposite o with lastTrade := some o.price } k = none ↔
    k = o.key ∨ r.find k = none := fun k => h.find_remove_iff ho
  obtain ⟨hnd, hknown, hgone, hle, htotal, htraded, hclean, hfills⟩ := hs
  have hfresh : o.key ∉ cancelledKeys evs := fun hk => hknown _ hk ((hrem _).2 (Or.inl rfl))
  refine ⟨?_, ?_, ?_, ?_, ?_, ?_, hclean, ?_⟩
  · rw [cancelledKeys_fillEvents]
    exact hnd
  · rw [cancelledKeys_fillEvents]
    exact fun k hk hn => hknown k hk ((hrem k).2 (Or.inr hn))
  · rw [cancelledKeys_fillEvents]
    rintro k (hk | hk)
    · exact hgone k (Or.inl ((hrem k).2 (Or.inr hk)))
    · exact hgone k (Or.inr hk)
  · exact hle.trans (Nat.sub_le _ _)
  · have h1 := h.total_remove (w := Order.qty) ho
    have h2 := h.sum_remove ho (show ∀ k ∈ cancelledKeys evs, (r.remove s.opposite o).find k ≠ none from hknown)
    rw [total_withTrade] at htotal
    rw [cancelledKeys_fillEvents]
    simp only [qtyOf_withTrade] at htotal h2 ⊢
    omega
  · rw [tradedQty_fillEvents]
    omega
  · intro m x hm
    have hmo : m.resting.lookup o.key = some o.qty := by
      rw [hm o.key (by rw [h.find_mem ho]; simp) hfresh, h.qtyOf_self ho]
    rw [fillEvents_recorded hne hmo (le_refl _), Nat.sub_self, if_pos rfl]
    obtain ⟨R, hR, hlook⟩ := hfills { m with filled := m.filled + o.qty, resting := m.resting.erase o.key } (x + o.qty) (by
      intro k hk hkn
      have hko : k ≠ o.key := fun he => hk ((hrem k).2 (Or.inl he))
      rw [lookup_erase_if, if_neg hko, qtyOf_withTrade, h.qtyOf_remove ho, if_neg hko]
      exact hm k (fun hn => hk ((hrem k).2 (Or.inr hn))) hkn)
    refine ⟨R, ?_, ?_⟩
    · rw [hR]
      simp only [Except.ok.injEq, Prod.mk.injEq, ConservationModel.mk.injEq, true_and, and_true]
      omega
    · intro k
      rw [hlook, cancelledKeys_fillEvents]
      simp only [hrem]
      by_cases hko : k = o.key
      · -- the filled maker: gone from the shadow and from the state
        have hk' : r.find k ≠ none := by rw [hko, h.find_mem ho]; simp
        rw [if_pos (Or.inl (Or.inl hko)), lookup_erase_if, if_pos hko,
          if_neg (by rintro (hh | hh); exacts [hk' hh, hfresh (hko ▸ hh)]), eq_comm, qtyOf_none]
        exact hgone k (Or.inl ((hrem k).2 (Or.inl hko)))
      · rw [lookup_erase_if, if_neg hko]
        simp only [hko, false_or]

/-- The last maker keeps what the aggressor leaves of it. -/
theorem WF.settled_part (h : r.WF) (ho : o ∈ r.side s.opposite) (hacct : o.account ≠ a) {q : ℕ} (hlt : q < o.qty) :
    Settled (a, i) r q { r.setQty s.opposite o.key (o.qty - q) with lastTrade := some o.price } 0
      (fillEvents a i s o q 0) := by
  have hne : o.key ≠ (a, i) := fun he => hacct (Prod.mk.inj he).1
  have hnil : cancelledKeys (fillEvents a i s o q 0) = [] := rfl
  have hq := h.qtyOf_setQty ho (show 0 < o.qty - q by omega)
  -- the maker stays, so the same orders are known before and after
  have hfind : ∀ k, Ref.find { r.setQty s.opposite o.key (o.qty - q) with lastTrade := some o.price } k = none ↔
      r.find k = none := by
    intro k
    rw [← qtyOf_none, qtyOf_withTrade, hq, ← qtyOf_none]
    by_cases hk : k = o.key
    · rw [if_pos hk, hk, h.qtyOf_self ho]
      simp
    · rw [if_neg hk]
  refine ⟨by rw [hnil]; exact List.nodup_nil, by rw [hnil]; simp, ?_, Nat.zero_le q, ?_, ?_, rfl, ?_⟩
  · rw [hnil]
    rintro k (hk | hk)
    · exact (hfind k).2 hk
    · simp at hk
  · have h1 := h.total_setQty (w := Order.qty) ho (o.qty - q)
    have h2 := total_withTrade Order.qty (r.setQty s.opposite o.key (o.qty - q)) (some o.price)
    simp only [hnil, List.map_nil, List.sum_nil] at h1 ⊢
    omega
  · have := tradedQty_fillEvents (a := a) (i := i) (s := s) (o := o) (q := q) (v := 0) []
    rw [List.append_nil] at this
    rw [this]
    simp [tradedQty]
  · intro m x hm
    have hk' : r.find o.key ≠ none := by rw [h.find_mem ho]; simp
    have hmo : m.resting.lookup o.key = some o.qty := by
      rw [hm o.key hk' (by rw [hnil]; simp), h.qtyOf_self ho]
    have hrec := fillEvents_recorded (m := m) (x := x) (q := q) (v := 0) (s := s) hne hmo hlt.le []
    rw [List.append_nil, if_neg (by omega)] at hrec
    refine ⟨m.resting.insert o.key (o.qty - q), ?_, ?_⟩
    · rw [hrec]
      rfl
    · intro k
      rw [lookup_insert_if, qtyOf_withTrade, hq, hnil]
      by_cases hko : k = o.key
      · rw [if_pos hko, if_neg (by rintro (hh | hh); exacts [hk' (hko ▸ hh), by simp at hh]), if_pos hko]
      · rw [if_neg hko, if_neg hko]
        by_cases hk : r.find k = none
        · rw [if_pos (Or.inl hk)]
        · rw [if_neg (by rintro (hh | hh); exacts [hk hh, by simp at hh])]
          exact hm k hk (by rw [hnil]; simp)

/-- **Both passes of the ledger over a sweep.** -/
theorem WF.settled (h : r.WF) (s : Side) (limit q : ℕ) (hself : r.find (a, i) = none) :
    Settled (a, i) r q (r.sweep a i s limit q).1 (r.sweep a i s limit q).2.1 (r.sweep a i s limit q).2.2 := by
  revert hself
  refine h.sweep_induct (motive := fun r q res => r.find (a, i) = none →
    Settled (a, i) r q res.1 res.2.1 res.2.2) a i s limit ?_ ?_ ?_ ?_ q
  · intro r q _ _ _
    exact Settled.refl _ r q
  · intro r q o l r' q' evs h hc _ _ _ ih hself
    have ho := mem_of_cons hc
    exact h.settled_cancel ho (ih ((h.find_remove_iff ho).2 (Or.inr hself)))
  · intro r q o l r' q' evs h hc _ _ hacct hqle ih hself
    have ho := mem_of_cons hc
    exact h.settled_fill ho hacct hqle (ih ((h.find_remove_iff ho).2 (Or.inr hself)))
  · intro r q o l h hc _ _ hacct hlt _
    exact h.settled_part (mem_of_cons hc) hacct hlt

/-- The two passes over a sweep by `selfId`, on a ledger that is in step with the state elsewhere. -/
theorem Settled.passes {selfId : Key} {q q' : ℕ} {evs : List Event} (hs : Settled selfId r q r' q' evs)
    (hself : r.find selfId = none) {m : ConservationModel} (hm : ∀ k, k ≠ selfId → m.resting.lookup k = r.qtyOf k) :
    ∃ R, m.consumeCancelled evs = .ok { m with
        cancelled := m.cancelled + ((cancelledKeys evs).map (fun k => (r.qtyOf k).getD 0)).sum, resting := R } ∧
      ∀ m' : ConservationModel, m'.resting = R → ∃ R', (∀ evs', (evs ++ evs').foldlM (consumeFilledEvent selfId) (m', 0) =
          evs'.foldlM (consumeFilledEvent selfId)
            ({ m' with filled := m'.filled + (q - q'), resting := R' }, q - q')) ∧
        ∀ k, R'.lookup k = if k = selfId then m.resting.lookup k else r'.qtyOf k := by
  have hne : ∀ k, r.find k ≠ none → k ≠ selfId := fun k hk he => hk (he ▸ hself)
  have hsome : ∀ k, r.find k ≠ none → r.qtyOf k = some ((r.qtyOf k).getD 0) := by
    intro k hk
    cases hq : r.qtyOf k with
    | none => exact absurd (qtyOf_none.1 hq) hk
    | some v => rfl
  obtain ⟨R, hR, hlook⟩ := consumeCancelled_ok (m := m) (f := fun k => (r.qtyOf k).getD 0) hs.nodup (by
    intro k hk
    have hk := hs.known k hk
    rw [hm k (hne k hk)]
    exact hsome k hk)
  refine ⟨R, hR, ?_⟩
  intro m' hm'
  obtain ⟨R', hR', hlook'⟩ := hs.fills m' 0 (by
    intro k hk hkn
    rw [hm', hlook, if_neg hkn, hm k (hne k hk)])
  refine ⟨R', ?_, ?_⟩
  · intro evs'
    rw [List.foldlM_append, hR', Nat.zero_add]
    rfl
  · intro k
    rw [hlook', hm', hlook]
    by_cases hk : k = selfId
    · have hkn : k ∉ cancelledKeys evs := fun hc => hne k (hs.known k hc) hk
      rw [if_pos (Or.inl (hk ▸ hself)), if_neg hkn, if_pos hk]
    rw [if_neg hk]
    by_cases hgone : r.find k = none ∨ k ∈ cancelledKeys evs
    · have hnone : r'.qtyOf k = none := qtyOf_none.2 (hs.gone k hgone)
      rw [if_pos hgone, hnone]
      by_cases hc : k ∈ cancelledKeys evs
      · rw [if_pos hc]
      · rw [if_neg hc, hm k hk]
        exact qtyOf_none.2 (hgone.resolve_right hc)
    · rw [if_neg hgone]

/-- The orders under `ks` leave, each under its own key. -/
structure Removed (r : Ref) (ks : List Key) (r' : Ref) : Prop where
  nodup : ks.Nodup
  known : ∀ k ∈ ks, r.find k ≠ none
  others : ∀ k, r'.qtyOf k = if k ∈ ks then none else r.qtyOf k
  total : r.total Order.qty = r'.total Order.qty + (ks.map (fun k => (r.qtyOf k).getD 0)).sum

theorem Removed.nil (r : Ref) : Removed r [] r := ⟨List.nodup_nil, by simp, by simp, by simp⟩

theorem WF.removed_cons (h : r.WF) (ho : o ∈ r.side s) {ks : List Key} (hr : Removed (r.remove s o) ks r') :
    Removed r (o.key :: ks) r' := by
  have hfresh : o.key ∉ ks := fun hk => hr.known _ hk ((h.find_remove_iff ho).2 (Or.inl rfl))
  refine ⟨List.nodup_cons.2 ⟨hfresh, hr.nodup⟩, ?_, ?_, ?_⟩
  · intro k hk
    rcases List.mem_cons.1 hk with rfl | hk
    · rw [h.find_mem ho]
      simp
    · exact fun hn => hr.known k hk ((h.find_remove_iff ho).2 (Or.inr hn))
  · intro k
    rw [hr.others, h.qtyOf_remove ho]
    by_cases hk : k = o.key
    · rw [if_pos hk, ite_self, if_pos (show k ∈ o.key :: ks by rw [hk]; exact List.mem_cons_self)]
    · rw [if_neg hk]
      simp only [List.mem_cons, hk, false_or]
  · have h1 := h.total_remove (w := Order.qty) ho
    have h2 := hr.total
    rw [h.sum_remove ho hr.known] at h2
    rw [List.map_cons, List.sum_cons, h.qtyOf_self ho, Option.getD_some]
    omega

theorem WF.removed_clear (h : r.WF) (a : ℕ) (s : Side) (limit : ℕ) :
    Removed r ((r.ownPrefix a s limit).map Order.key) (r.clearOwn a s limit) := by
  refine h.clear_induct (motive := fun r r' own => Removed r (own.map Order.key) r') a s limit ?_ ?_
  · intro r _ _; exact Removed.nil r
  · intro r o l r' own h hc _ _ ih
    exact h.removed_cons (mem_of_cons hc) ih

theorem WF.removed_foldl (h : r.WF) (a : ℕ) {ids : List ℕ} (hnd : ids.Nodup) (hid : ∀ id ∈ ids, r.find (a, id) ≠ none) :
    Removed r (ids.map (fun id => (a, id))) (ids.foldl (fun r id => r.removeKey (a, id)) r) := by
  induction ids generalizing r with
  | nil => exact Removed.nil r
  | cons id ids ih =>
    rw [List.nodup_cons] at hnd
    cases hf : r.find (a, id) with
    | none => exact absurd hf (hid id List.mem_cons_self)
    | some e =>
      obtain ⟨s, o⟩ := e
      obtain ⟨ho, hk⟩ := find_some hf
      have hrem : r.removeKey (a, id) = r.remove s o := by
        unfold Ref.removeKey
        rw [hf]
      rw [List.map_cons, List.foldl_cons, hrem, ← hk]
      refine h.removed_cons ho (ih (h.remove ho) hnd.2 ?_)
      intro id' hid' hn
      rcases (h.find_remove_iff ho).1 hn with he | hn
      · rw [hk, Prod.mk.injEq] at he
        exact hnd.1 (he.2 ▸ hid')
      · exact hid id' (List.mem_cons_of_mem _ hid') hn

/-- A ledger that adds up, in step with the state. -/
structure Balanced (m : ConservationModel) (r : Ref) : Prop where
  conserved : m.submitted = 2 * m.filled + r.total Order.qty + m.cancelled + m.discarded
  resting : ∀ k, m.resting.lookup k = r.qtyOf k

variable {m : ConservationModel} {evs : List Event}

/-- Cancellations move quantity from resting to cancelled. -/
theorem Removed.recorded {ks : List Key} (hr : Removed r ks r') (hb : Balanced m r) (hk : cancelledKeys evs = ks) :
    ∃ m', m.consumeCancelled evs = .ok m' ∧ Balanced m' r' ∧ m'.filled = m.filled := by
  obtain ⟨R, hR, hlook⟩ := consumeCancelled_ok (m := m) (f := fun k => (r.qtyOf k).getD 0)
    (by rw [hk]; exact hr.nodup) (by
      rw [hk]
      intro k hk
      rw [hb.resting]
      cases hq : r.qtyOf k with
      | none => exact absurd (qtyOf_none.1 hq) (hr.known k hk)
      | some v => rfl)
  refine ⟨_, hR, ⟨?_, ?_⟩, rfl⟩
  · have h1 := hb.conserved
    have h2 := hr.total
    simp only [hk]
    omega
  · intro k
    rw [hlook, hk, hr.others, hb.resting]

theorem isRejected_append (evs evs' : List Event) : isRejected (evs ++ evs') = (isRejected evs || isRejected evs') :=
  List.any_append

theorem isRejected_map {α : Type*} {g : α → Event} {f : α → Key} (hg : ∀ x, g x = .cancelled (f x).1 (f x).2)
    (l : List α) : isRejected (l.map g) = false := by
  simp [isRejected, hg]

end Ref

end MatchingEngine
