import MatchingEngine.Main.OrderTypes
import MatchingEngine.Main.Isolation
import MatchingEngine.Ref.Edits

/-!
# Commands that commute

Two clients' commands reach the matching thread in some order. The order matters if they meet: if one trades, if a
PostOnly order finds another account's order in its way, or if both join one level. Otherwise it does not
(`unmet_commands_commute`).

* `Ref.plan`: what a command that meets nobody does, read off its own account's orders.
* `Ref.WF.carries_out`: it does exactly that.
* `Ref.SameView.plan`: so other accounts' commands do not change what it does.
-/

namespace MatchingEngine

/-- A print, or a PostOnly order turned away: the command met another account's order. -/
def Event.isMeeting : Event → Bool
  | .trade .. => true
  | .rejected _ _ .wouldCross => true
  | _ => false

namespace Ref

variable {P : Profile} {r r' : Ref} {a i limit p q : ℕ} {s : Side} {o : Order} {c : Command}

/-- The own orders in an order's way. -/
def inTheWay (r : Ref) (a : ℕ) (s : Side) (limit : ℕ) : List Order :=
  (r.mine a s.opposite).takeWhile (fun o => s.crosses limit o.price)

/-- What a command does if it meets nobody: its edits and its reports. -/
def plan (r : Ref) : Command → List Edit × List Event
  | .newOrder a i s p q k t _ =>
    if (r.find (a, i)).isSome then ([], [.rejected a i .duplicateOrderId])
    else
      let own := r.inTheWay a s (limitOf k s p)
      let out := own.map (Edit.take s.opposite)
      let gone := own.map (fun o => Event.cancelled o.account o.id)
      match k, t with
      | .limit, .gtc => (out ++ [.join s ⟨a, i, p, q⟩], gone ++ [.accepted a i q])
      | .limit, .postOnly => (out ++ [.join s ⟨a, i, p, q⟩], gone ++ [.accepted a i q])
      | .limit, .fok => ([], [.rejected a i .notFullyFillable])
      | _, _ => (out, gone ++ [.accepted a i 0])
  | .cancelOrder a i =>
    match r.find (a, i) with
    | some (s, o) => ([.take s o], [.cancelled a i])
    | none => ([], [.rejected a i .unknownOrderId])
  | .cancelReplace a i p q =>
    if q = 0 then ([], [.rejected a i .zeroQuantity])
    else match r.find (a, i) with
      | none => ([], [.rejected a i .unknownOrderId])
      | some (s, o) =>
        if p = o.price ∧ q ≤ o.qty then ([.resize s o.key q], [.replaced a i q true])
        else
          let own := r.inTheWay a s p
          (.take s o :: own.map (Edit.take s.opposite) ++ [.join s ⟨a, i, p, q⟩],
            .replaced a i q false :: own.map (fun o => Event.cancelled o.account o.id))
  | .massCancel a =>
    ((r.slots a).filterMap (fun id => (r.find (a, id)).map (fun x => Edit.take x.1 x.2)),
      (r.slots a).map (fun id => .cancelled a id))
  | _ => ([], [])

/-- **An account's plan depends on its view alone.** -/
theorem SameView.plan (h : SameView a r r') (hc : c.issuer = some a) : r.plan c = r'.plan c := by
  have hway : ∀ s limit, r.inTheWay a s limit = r'.inTheWay a s limit := by
    intro s limit
    unfold inTheWay
    rw [h.mine]
  cases c with
  | newOrder a' i s p q k t ts =>
    obtain rfl : a' = a := Option.some.inj hc
    simp only [Ref.plan, h.find, hway]
  | cancelOrder a' i =>
    obtain rfl : a' = a := Option.some.inj hc
    simp only [Ref.plan, h.find]
  | cancelReplace a' i p q =>
    obtain rfl : a' = a := Option.some.inj hc
    simp only [Ref.plan, h.find, hway]
  | massCancel a' =>
    obtain rfl : a' = a := Option.some.inj hc
    simp only [Ref.plan, h.find, h.slots]
  | killSwitch _ => cases hc
  | snapshot => cases hc

/-! ### Carrying the plan out -/

theorem foldl_take (own : List Order) (r : Ref) (s : Side) :
    (own.map (Edit.take s)).foldl Edit.apply r = own.foldl (fun r o => r.remove s o) r := by
  rw [List.foldl_map]
  rfl

theorem own_of_noForeign (hno : ¬ ∃ o ∈ r.crossing s limit, o.account ≠ a) :
    ∀ o ∈ r.crossing s limit, decide (o.account = a) = true := by
  intro o ho
  by_contra ha
  exact hno ⟨o, ho, by simpa using ha⟩

/-- With no foreign order in its way, everything a sweep meets is the account's own. -/
theorem WF.crossing_eq_inTheWay (h : r.WF) (hno : ¬ ∃ o ∈ r.crossing s limit, o.account ≠ a) :
    r.crossing s limit = r.inTheWay a s limit := by
  have hclosed : ∀ o o' : Order, s.opposite.better o.price o'.price →
      decide (s.crosses limit o'.price) = true → decide (s.crosses limit o.price) = true := by
    intro o o' hbetter hx
    exact decide_eq_true (s.crosses_of_better hbetter (of_decide_eq_true hx))
  have hall : (r.crossing s limit).filter (fun o => o.account = a) = r.crossing s limit :=
    List.filter_eq_self.2 (own_of_noForeign hno)
  unfold inTheWay mine
  rw [takeWhile_eq_filter ((h.sorted s.opposite).sublist List.filter_sublist) hclosed, List.filter_comm,
    ← takeWhile_eq_filter (h.sorted s.opposite) hclosed]
  exact hall.symm

/-- A sweep that meets nobody takes out the own orders in its way. -/
theorem WF.sweep_unmet (h : r.WF) (hq : 0 < q) (hno : ¬ ∃ ev ∈ (r.sweep a i s limit q).2.2, ev.isTrade = true) :
    r.sweep a i s limit q = (((r.inTheWay a s limit).map (Edit.take s.opposite)).foldl Edit.apply r, q,
      (r.inTheWay a s limit).map (fun o => .cancelled o.account o.id)) := by
  rw [h.sweep_trades_iff hq i] at hno
  have hpre : r.ownPrefix a s limit = r.inTheWay a s limit := by
    unfold ownPrefix
    rw [← h.crossing_eq_inTheWay hno]
    exact List.takeWhile_eq_self_iff.2 (own_of_noForeign hno)
  rw [h.sweep_noForeign hq hno i, foldl_take, ← hpre]
  rfl

/-- No report of a meeting, no print. -/
theorem no_trade {evs evs' : List Event} (hsub : ∀ ev ∈ evs, ev ∈ evs') (hunmet : ∀ ev ∈ evs', ev.isMeeting = false) :
    ¬ ∃ ev ∈ evs, ev.isTrade = true := by
  rintro ⟨ev, hev, htrade⟩
  have hmeets := hunmet ev (hsub ev hev)
  cases ev with
  | trade => cases hmeets
  | _ => cases htrade

/-- A GTC order that meets nobody. -/
theorem WF.submitGtc_unmet (h : r.WF) (hq : 0 < q) (hk : r.find (a, i) = none)
    (hno : ¬ ∃ ev ∈ (r.sweep a i s p q).2.2, ev.isTrade = true) :
    r.submitGtc a i s p q =
      (((r.inTheWay a s p).map (Edit.take s.opposite) ++ [Edit.join s ⟨a, i, p, q⟩]).foldl Edit.apply r,
        (r.inTheWay a s p).map (fun o => .cancelled o.account o.id) ++ [.accepted a i q]) := by
  rw [submitGtc_fresh hk, h.sweep_unmet hq hno, List.foldl_append]
  unfold Ref.restRemainder
  rw [if_pos hq]
  rfl

/-- An IOC or market order that meets nobody. -/
theorem WF.submitIoc_unmet (h : r.WF) (hq : 0 < q) (hk : r.find (a, i) = none)
    (hunmet : ∀ ev ∈ (r.submitIoc a i s p q).2, ev.isMeeting = false) :
    r.submitIoc a i s p q = (((r.inTheWay a s p).map (Edit.take s.opposite)).foldl Edit.apply r,
      (r.inTheWay a s p).map (fun o => .cancelled o.account o.id) ++ [.accepted a i 0]) := by
  rw [submitIoc_fresh hk] at hunmet ⊢
  rw [h.sweep_unmet hq (no_trade (fun ev hev => List.mem_append_left _ hev) hunmet)]

/-- An amend that meets nobody on its way back. -/
theorem WF.requeue_unmet (h : r.WF) (hq : 0 < q) (hf : r.find (a, i) = some (s, o))
    (hno : ¬ ∃ ev ∈ ((r.remove s o).sweep a i s p q).2.2, ev.isTrade = true) :
    ((r.remove s o).sweep a i s p q).1.restRemainder a i s p ((r.remove s o).sweep a i s p q).2.1 =
        (Edit.take s o :: (r.inTheWay a s p).map (Edit.take s.opposite) ++ [Edit.join s ⟨a, i, p, q⟩]).foldl
          Edit.apply r ∧
      ((r.remove s o).sweep a i s p q).2.2 = (r.inTheWay a s p).map (fun o => .cancelled o.account o.id) := by
  -- the amended order is not on the side it sweeps
  have hway : (r.remove s o).inTheWay a s p = r.inTheWay a s p := by
    unfold inTheWay mine
    rw [remove_side_ne _ _ (by cases s <;> decide)]
  rw [(h.remove (find_some hf).1).sweep_unmet hq hno, hway]
  unfold Ref.restRemainder
  rw [if_pos hq, List.cons_append, List.foldl_cons, List.foldl_append]
  exact ⟨rfl, rfl⟩

/-- The other orders are found where they were. -/
theorem WF.find_remove_ne (h : r.WF) (ho : o ∈ r.side s) {k : Key} (hk : k ≠ o.key) :
    (r.remove s o).find k = r.find k := by
  cases hf : r.find k with
  | none =>
    rw [find_eq_none] at hf ⊢
    intro x hx
    exact hf x ((r.remove_orders_sublist s o).subset hx)
  | some e =>
    obtain ⟨s', x⟩ := e
    obtain ⟨hx, rfl⟩ := find_some hf
    have hmem : x ∈ (r.remove s o).side s' := by
      rw [remove_side]
      split
      · rename_i hs
        exact List.mem_filter.2 ⟨hs ▸ hx, by simpa using hk⟩
      · exact hx
    exact (h.remove ho).find_mem hmem

/-- A mass cancel takes the account's orders out where they were when it came. -/
theorem WF.massCancel_takes (h : r.WF) (a : ℕ) {ids : List ℕ} (hnd : ids.Nodup) :
    ids.foldl (fun r id => r.removeKey (a, id)) r =
      (ids.filterMap (fun id => (r.find (a, id)).map (fun x => Edit.take x.1 x.2))).foldl Edit.apply r := by
  induction ids generalizing r with
  | nil => rfl
  | cons i ids ih =>
    rw [List.nodup_cons] at hnd
    rw [List.foldl_cons, ih (h.removeKey (a, i)) hnd.2]
    unfold Ref.removeKey
    cases hf : r.find (a, i) with
    | none => rw [List.filterMap_cons_none (by rw [hf]; rfl)]
    | some e =>
      obtain ⟨s, o⟩ := e
      obtain ⟨ho, hk⟩ := find_some hf
      rw [List.filterMap_cons_some (by rw [hf]; rfl), List.foldl_cons]
      congr 1
      refine List.filterMap_congr fun j hj => ?_
      have hne : (a, j) ≠ o.key := by
        rw [hk]
        rintro ⟨⟩
        exact hnd.1 hj
      rw [h.find_remove_ne ho hne]

theorem dispatch_duplicate (P : Profile) {e : Side × Order} (hf : r.find (a, i) = some e) (s : Side) (p q : ℕ)
    (k : OrderKind) (t : Tif) (ts : ℕ) :
    r.dispatch P (.newOrder a i s p q k t ts) = (r, [.rejected a i .duplicateOrderId]) := by
  have hdup : ∀ body, r.unlessDuplicate a i body = (r, [.rejected a i .duplicateOrderId]) := by
    intro body
    unfold unlessDuplicate
    rw [hf]
    rfl
  cases k with
  | market => exact hdup _
  | limit => cases t <;> exact hdup _

/-- **A command that meets nobody carries out its plan.** -/
theorem WF.carries_out (h : r.WF) (hc : c.Checked P) (ha : c.issuer = some a)
    (hunmet : ∀ ev ∈ (r.dispatch P c).2, ev.isMeeting = false) :
    r.dispatch P c = ((r.plan c).1.foldl Edit.apply r, (r.plan c).2) := by
  cases c with
  | newOrder a' i s p q k t ts =>
    have hq : 0 < q := Nat.pos_of_ne_zero hc.1
    cases hf : r.find (a', i) with
    | some e =>
      rw [dispatch_duplicate P hf]
      simp only [Ref.plan, hf]
      rfl
    | none =>
      cases k with
      | market =>
        have hioc := h.submitIoc_unmet (s := s) (p := limitOf .market s p) hq hf hunmet
        simp only [Ref.plan, hf]
        exact hioc
      | limit =>
        cases t with
        | gtc =>
          have hevs : (r.dispatch P (.newOrder a' i s p q .limit .gtc ts)).2 = _ :=
            congrArg Prod.snd (submitGtc_fresh hf)
          rw [hevs] at hunmet
          have hgtc := h.submitGtc_unmet hq hf (no_trade (fun ev hev => List.mem_append_left _ hev) hunmet)
          simp only [Ref.plan, hf]
          exact hgtc
        | ioc =>
          have hioc := h.submitIoc_unmet (s := s) (p := p) hq hf hunmet
          simp only [Ref.plan, hf]
          exact hioc
        | fok =>
          have hfok : r.dispatch P (.newOrder a' i s p q .limit .fok ts) = _ := h.submitFok_fresh hf
          have hleft : (r.sweep a' i s p q).2.1 ≠ 0 := by
            intro hzero
            rw [hfok, if_pos hzero, submitIoc_fresh hf] at hunmet
            rw [h.sweep_unmet hq (no_trade (fun ev hev => List.mem_append_left _ hev) hunmet)] at hzero
            exact hq.ne' hzero
          rw [hfok, if_neg hleft]
          simp only [Ref.plan, hf]
          rfl
        | postOnly =>
          have hpost : r.dispatch P (.newOrder a' i s p q .limit .postOnly ts) = _ := h.submitPostonly_fresh hq hf
          have hno : ¬ ∃ ev ∈ (r.sweep a' i s p q).2.2, ev.isTrade = true := by
            intro htrade
            rw [hpost, if_pos htrade] at hunmet
            exact Bool.noConfusion (hunmet (.rejected a' i .wouldCross) (by simp))
          rw [hpost, if_neg hno, h.submitGtc_unmet hq hf hno]
          simp only [Ref.plan, hf]
          rfl
  | cancelOrder a' i =>
    show r.cancel a' i = _
    unfold Ref.cancel
    cases hf : r.find (a', i) with
    | none => simp only [Ref.plan, hf]; rfl
    | some e => simp only [Ref.plan, hf]; rfl
  | cancelReplace a' i p q =>
    by_cases hq : q = 0
    · show r.modify a' i p q = _
      simp only [Ref.modify, Ref.plan, if_pos hq]
      rfl
    · cases hf : r.find (a', i) with
      | none =>
        show r.modify a' i p q = _
        simp only [Ref.modify, Ref.plan, if_neg hq, hf]
        rfl
      | some e =>
        obtain ⟨s, o⟩ := e
        by_cases hstays : p = o.price ∧ q ≤ o.qty
        · show r.modify a' i p q = _
          simp only [Ref.modify, Ref.plan, if_neg hq, hf, if_pos hstays]
          rfl
        · have hout := dispatch_requeue P hf hq hstays
          rw [hout] at hunmet ⊢
          have hno := no_trade (fun ev hev => List.mem_cons_of_mem _ hev) hunmet
          obtain ⟨hstate, hevs⟩ := h.requeue_unmet (Nat.pos_of_ne_zero hq) hf hno
          rw [hstate, hevs]
          simp only [Ref.plan, if_neg hq, hf, if_neg hstays]
  | massCancel a' =>
    show r.massCancel a' = _
    unfold Ref.massCancel
    rw [h.massCancel_takes a' (h.slots_nodup a')]
    rfl
  | killSwitch engaged => cases ha
  | snapshot => cases ha

/-! ### Whose edits, and where -/

/-- The level a command may bring an order to. -/
def joins (r : Ref) : Command → Option (Side × ℕ)
  | .newOrder _ _ s p _ .limit .gtc _ => some (s, p)
  | .newOrder _ _ s p _ .limit .postOnly _ => some (s, p)
  | .cancelReplace a i p q =>
    (r.find (a, i)).bind (fun x => if p = x.2.price ∧ q ≤ x.2.qty then none else some (x.1, p))
  | _ => none

theorem inTheWay_account (ho : o ∈ r.inTheWay a s limit) : o.account = a := by
  have hmine : o ∈ r.mine a s.opposite := (List.takeWhile_sublist _).subset ho
  simpa using (List.mem_filter.1 hmine).2

/-- An edit of account `a` that lets an order join no other level than `x`. -/
def Edit.Of (a : ℕ) (x : Option (Side × ℕ)) (e : Edit) : Prop := e.account = a ∧ ∀ y, e.level = some y → x = some y

theorem Edit.of_take (ho : o.account = a) (x : Option (Side × ℕ)) : (Edit.take s o).Of a x :=
  ⟨ho, fun y hy => by cases hy⟩

theorem Edit.of_join (a i : ℕ) (s : Side) (p q : ℕ) : (Edit.join s ⟨a, i, p, q⟩).Of a (some (s, p)) :=
  ⟨rfl, fun _ hy => hy⟩

theorem inTheWay_of (r : Ref) (a : ℕ) (s : Side) (limit : ℕ) (x : Option (Side × ℕ)) :
    ∀ e ∈ (r.inTheWay a s limit).map (Edit.take s.opposite), e.Of a x := by
  intro e he
  obtain ⟨o, ho, rfl⟩ := List.mem_map.1 he
  exact Edit.of_take (inTheWay_account ho) x

theorem entering_of (r : Ref) (a i : ℕ) (s : Side) (p q : ℕ) :
    ∀ e ∈ (r.inTheWay a s p).map (Edit.take s.opposite) ++ [Edit.join s ⟨a, i, p, q⟩], e.Of a (some (s, p)) := by
  rw [List.forall_mem_append]
  exact ⟨r.inTheWay_of a s p _, List.forall_mem_singleton.2 (Edit.of_join a i s p q)⟩

theorem find_account {x : Side × Order} (hf : r.find (a, i) = some x) : x.2.account = a :=
  congrArg Prod.fst (find_some hf).2

/-- **A plan edits its own account's orders**, and an order joins the level it was sent to. -/
theorem plan_of (r : Ref) (ha : c.issuer = some a) : ∀ e ∈ (r.plan c).1, e.Of a (r.joins c) := by
  cases c with
  | newOrder a' i s p q k t ts =>
    obtain rfl : a' = a := Option.some.inj ha
    cases hf : r.find (a', i) with
    | some x => simp [Ref.plan, hf]
    | none =>
      simp only [Ref.plan, hf]
      cases k with
      | market => exact r.inTheWay_of a' s _ _
      | limit =>
        cases t with
        | gtc => exact r.entering_of a' i s p q
        | ioc => exact r.inTheWay_of a' s _ _
        | fok => exact fun e he => absurd he List.not_mem_nil
        | postOnly => exact r.entering_of a' i s p q
  | cancelOrder a' i =>
    obtain rfl : a' = a := Option.some.inj ha
    cases hf : r.find (a', i) with
    | none => simp [Ref.plan, hf]
    | some x =>
      simp only [Ref.plan, hf]
      exact List.forall_mem_singleton.2 (Edit.of_take (find_account hf) _)
  | cancelReplace a' i p q =>
    obtain rfl : a' = a := Option.some.inj ha
    by_cases hq : q = 0
    · simp [Ref.plan, hq]
    cases hf : r.find (a', i) with
    | none => simp [Ref.plan, hf, hq]
    | some x =>
      have hown := find_account hf
      by_cases hstays : p = x.2.price ∧ q ≤ x.2.qty
      · simp only [Ref.plan, if_neg hq, hf, if_pos hstays]
        exact List.forall_mem_singleton.2 ⟨hown, fun y hy => by cases hy⟩
      · have hjoins : r.joins (.cancelReplace a' i p q) = some (x.1, p) := by
          simp only [joins, hf, Option.bind_some, if_neg hstays]
        rw [hjoins]
        simp only [Ref.plan, if_neg hq, hf, if_neg hstays]
        rw [List.cons_append, List.forall_mem_cons]
        exact ⟨Edit.of_take hown _, r.entering_of a' i x.1 p q⟩
  | massCancel a' =>
    obtain rfl : a' = a := Option.some.inj ha
    intro e he
    obtain ⟨id, -, hid⟩ := List.mem_filterMap.1 he
    obtain ⟨x, hx, rfl⟩ := Option.map_eq_some_iff.1 hid
    exact Edit.of_take (find_account hx) _
  | killSwitch engaged => cases ha
  | snapshot => cases ha

/-- **Commands of two accounts that meet nobody commute.** -/
theorem WF.unmet_comm (h : r.WF) {c c' : Command} {a' : ℕ} (hc : c.Checked P) (hc' : c'.Checked P)
    (ha : c.issuer = some a) (ha' : c'.issuer = some a') (hne : a ≠ a')
    (hjoins : ∀ x, r.joins c = some x → r.joins c' ≠ some x)
    (h₁ : ∀ ev ∈ (r.dispatch P c).2, ev.isMeeting = false) (h₂ : ∀ ev ∈ (r.dispatch P c').2, ev.isMeeting = false)
    (h₁₂ : ∀ ev ∈ ((r.dispatch P c).1.dispatch P c').2, ev.isMeeting = false)
    (h₂₁ : ∀ ev ∈ ((r.dispatch P c').1.dispatch P c).2, ev.isMeeting = false) :
    ((r.dispatch P c).1.dispatch P c').1 = ((r.dispatch P c').1.dispatch P c).1 ∧
      ((r.dispatch P c).1.dispatch P c').2 = (r.dispatch P c').2 ∧
      ((r.dispatch P c').1.dispatch P c).2 = (r.dispatch P c).2 := by
  have hwf := (r.did P c).wf h hc
  have hwf' := (r.did P c').wf h hc'
  have hout := h.carries_out hc ha h₁
  have hout' := h.carries_out hc' ha' h₂
  have hof := r.plan_of ha
  have hof' := r.plan_of ha'
  -- neither command changes what the other sees
  have hview : SameView a' r (r.dispatch P c).1 := by
    rw [hout]
    exact sameView_edited (fun e he => (hof e he).1 ▸ hne) r
  have hview' : SameView a r (r.dispatch P c').1 := by
    rw [hout']
    exact sameView_edited (fun e he => (hof' e he).1 ▸ hne.symm) r
  have hlast := hwf.carries_out hc' ha' h₁₂
  have hlast' := hwf'.carries_out hc ha h₂₁
  rw [← hview.plan ha'] at hlast
  rw [← hview'.plan ha] at hlast'
  refine ⟨?_, by rw [hlast, hout'], by rw [hlast', hout]⟩
  rw [hlast, hlast', hout, hout']
  refine edited_comm (fun e he e' he' => ?_) (fun e he e' he' x hx hx' => ?_) h.sorted
  · rw [(hof e he).1, (hof' e' he').1]
    exact hne
  · exact hjoins x ((hof e he).2 x hx) ((hof' e' he').2 x hx')

end Ref

namespace Engine

/-- The level a command may bring an order to: that of a new order that can rest, or of an amend that loses its
priority. -/
def joins (e : Engine) : Command → Option (Side × ℕ)
  | .newOrder _ _ s p _ .limit .gtc _ => some (s, p)
  | .newOrder _ _ s p _ .limit .postOnly _ => some (s, p)
  | .cancelReplace a i p q =>
    ((e.book.orderIndex.lookup (a, i)).bind e.book.arena.get).bind
      (fun n => if p = n.price ∧ q ≤ n.qty then none else some (n.side, p))
  | _ => none

variable {P : Profile} {e : Engine} {r : Ref}

theorem joins_eq (hs : Sim P ⊤ e.book r) (c : Command) : e.joins c = r.joins c := by
  cases c with
  | newOrder a i s p q k t ts =>
    cases k with
    | market => rfl
    | limit => cases t <;> rfl
  | cancelReplace a i p q =>
    rcases hs.lookup (a, i) with ⟨hl, hf⟩ | ⟨x, n, hl, hn, -, hf⟩
    · simp only [joins, Ref.joins, hl, hf, Option.bind_none]
    · simp only [joins, Ref.joins, hl, hf, Option.bind_some, hn]
      rfl
  | _ => rfl

end Engine

/-- **Commands that meet nobody commute.** From every state an engine reaches, two commands of different accounts can be
applied in either order without a panic; and if in neither order one of them trades or is turned away as crossing,
and they do not bring orders to one level, then each reports the same in either order, and from the two
ends every further sequence of commands emits the same events, or panics in the same way. -/
theorem unmet_commands_commute {P : Profile} (hP : P.Total) {cmds : List Command} (hcmds : ∀ c ∈ cmds, c.Checked P)
    {e : Engine} {evss : List (List Event)} (hrun : Engine.new.runFrom P cmds = .ok (e, evss)) {c c' : Command}
    {a a' : ℕ} (hc : c.Checked P) (hc' : c'.Checked P) (ha : c.issuer = some a) (ha' : c'.issuer = some a')
    (hne : a ≠ a') :
    ∃ e₁ evs₁ e₁₂ evs₁₂ e₂ evs₂ e₂₁ evs₂₁,
      e.apply P c = .ok (e₁, evs₁) ∧ e₁.apply P c' = .ok (e₁₂, evs₁₂) ∧
      e.apply P c' = .ok (e₂, evs₂) ∧ e₂.apply P c = .ok (e₂₁, evs₂₁) ∧
      ((∀ ev ∈ evs₁ ++ evs₁₂ ++ evs₂ ++ evs₂₁, ev.isMeeting = false) →
        (∀ x, e.joins c = some x → e.joins c' ≠ some x) →
        withoutUpdates evs₁ = withoutUpdates evs₂₁ ∧ withoutUpdates evs₁₂ = withoutUpdates evs₂ ∧
        e₁₂.SameFuture P e₂₁) := by
  obtain ⟨r, hs⟩ := sim_of_checked_run hP hcmds hrun
  have hsnap : ∀ {c : Command} {a : ℕ}, c.issuer = some a → c ≠ .snapshot := by
    rintro c a hc rfl
    cases hc
  obtain ⟨e₁, upd₁, he₁, hupd₁, hs₁⟩ := Engine.apply_dispatch hP hs hc (hsnap ha) Prod.mk.eta.symm
  obtain ⟨e₁₂, upd₁₂, he₁₂, hupd₁₂, hs₁₂⟩ := Engine.apply_dispatch hP hs₁ hc' (hsnap ha') Prod.mk.eta.symm
  obtain ⟨e₂, upd₂, he₂, hupd₂, hs₂⟩ := Engine.apply_dispatch hP hs hc' (hsnap ha') Prod.mk.eta.symm
  obtain ⟨e₂₁, upd₂₁, he₂₁, hupd₂₁, hs₂₁⟩ := Engine.apply_dispatch hP hs₂ hc (hsnap ha) Prod.mk.eta.symm
  refine ⟨e₁, _, e₁₂, _, e₂, _, e₂₁, _, he₁, he₁₂, he₂, he₂₁, fun hunmet hjoins => ?_⟩
  simp only [List.forall_mem_append] at hunmet
  obtain ⟨⟨⟨⟨h₁, -⟩, ⟨h₁₂, -⟩⟩, ⟨h₂, -⟩⟩, ⟨h₂₁, -⟩⟩ := hunmet
  simp only [Engine.joins_eq hs] at hjoins
  obtain ⟨hstate, hreports', hreports⟩ := hs.wf.unmet_comm hc hc' ha ha' hne hjoins h₁ h₂ h₁₂ h₂₁
  rw [withoutUpdates_append hupd₁, withoutUpdates_append hupd₁₂, withoutUpdates_append hupd₂,
    withoutUpdates_append hupd₂₁, hreports, hreports']
  refine ⟨rfl, rfl, Engine.Alike.sameFuture ⟨_, hs₁₂, ?_⟩ hP⟩
  rw [hstate]
  exact hs₂₁

/-- Account 2 bids through an ask of its own while account 1 amends its ask upwards: neither meets the other. -/
theorem unmet_commands_commute_around_own :
    ∃ e evss e₁ evs₁ e₁₂ evs₁₂ e₂ evs₂ e₂₁ evs₂₁, Engine.new.runFrom .release
        [.newOrder 1 1 .sell 103 5 .limit .gtc 0, .newOrder 2 1 .sell 101 4 .limit .gtc 0] = .ok (e, evss) ∧
      e.apply .release (.newOrder 2 2 .buy 102 8 .limit .gtc 0) = .ok (e₁, evs₁) ∧
      e₁.apply .release (.cancelReplace 1 1 104 6) = .ok (e₁₂, evs₁₂) ∧
      e.apply .release (.cancelReplace 1 1 104 6) = .ok (e₂, evs₂) ∧
      e₂.apply .release (.newOrder 2 2 .buy 102 8 .limit .gtc 0) = .ok (e₂₁, evs₂₁) ∧
      withoutUpdates evs₁ = withoutUpdates evs₂₁ ∧ withoutUpdates evs₁₂ = withoutUpdates evs₂ ∧
      e₁₂.SameFuture .release e₂₁ := by
  obtain ⟨⟨e, evss⟩, hrun, hquiet, hquiet', hjoins, hjoins'⟩ := exists_ok_of_decide (x := Engine.new.runFrom .release
      [.newOrder 1 1 .sell 103 5 .limit .gtc 0, .newOrder 2 1 .sell 101 4 .limit .gtc 0])
    (p := fun v =>
      (v.1.runFrom .release [.newOrder 2 2 .buy 102 8 .limit .gtc 0, .cancelReplace 1 1 104 6]).toOption.map
        (fun x => x.2.flatten.any Event.isMeeting) = some false ∧
      (v.1.runFrom .release [.cancelReplace 1 1 104 6, .newOrder 2 2 .buy 102 8 .limit .gtc 0]).toOption.map
        (fun x => x.2.flatten.any Event.isMeeting) = some false ∧
      v.1.joins (.newOrder 2 2 .buy 102 8 .limit .gtc 0) = some (.buy, 102) ∧
      v.1.joins (.cancelReplace 1 1 104 6) = some (.sell, 104)) (by decide +kernel)
  have hdec : ∀ c ∈ [Command.newOrder 1 1 .sell 103 5 .limit .gtc 0, .newOrder 2 1 .sell 101 4 .limit .gtc 0],
      c.Decodable := by decide
  have hc : (Command.newOrder 2 2 .buy 102 8 .limit .gtc 0).Checked .release := ⟨by decide, fun h => by cases h⟩
  have hamend : (Command.cancelReplace 1 1 104 6).Checked .release := trivial
  obtain ⟨e₁, evs₁, e₁₂, evs₁₂, e₂, evs₂, e₂₁, evs₂₁, h₁, h₁₂, h₂, h₂₁, hcomm⟩ :=
    unmet_commands_commute Profile.release_total (fun c hc => (hdec c hc).checked) hrun hc hamend rfl rfl (by decide)
  have hfirst : Engine.runFrom .release e _ = .ok _ := run_cons_ok h₁ (run_cons_ok h₁₂ run_nil)
  have hsecond : Engine.runFrom .release e _ = .ok _ := run_cons_ok h₂ (run_cons_ok h₂₁ run_nil)
  rw [hfirst] at hquiet
  rw [hsecond] at hquiet'
  obtain ⟨hreports, hreports', hfuture⟩ := hcomm (by
    intro ev hev
    have hany := List.any_eq_false.1 (Option.some.inj hquiet) ev
    have hany' := List.any_eq_false.1 (Option.some.inj hquiet') ev
    simp only [List.flatten_cons, List.flatten_nil, List.append_nil, List.mem_append, Bool.not_eq_true]
      at hev hany hany'
    rcases hev with ((hev | hev) | hev) | hev
    · exact hany (Or.inl hev)
    · exact hany (Or.inr hev)
    · exact hany' (Or.inl hev)
    · exact hany' (Or.inr hev)) (by
    rw [hjoins, hjoins']
    decide)
  exact ⟨e, evss, e₁, evs₁, e₁₂, evs₁₂, e₂, evs₂, e₂₁, evs₂₁, hrun, h₁, h₁₂, h₂, h₂₁, hreports, hreports', hfuture⟩

end MatchingEngine
