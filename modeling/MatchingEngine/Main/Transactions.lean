import MatchingEngine.Gateway.Routing

/-!
# Trades and event transactions

What a consumer of the event stream may rely on: the events of a new order or an amend are
one transaction of a fixed shape. In between stand items, each an own order cancelled or
the three events of one match (`Items`); a view of the resting orders is carried along, so
that every item is about an order that rests at that moment.

* `Ref.WF.sweep_items`: a sweep emits items.
* `transactions_well_formed`: the shape of every new order and amend.
-/

namespace MatchingEngine

/-- The resting orders by key: side, price and quantity. -/
abbrev View := Key → Option (Side × ℕ × ℕ)

/-- The order under a key, through the index and the arena. -/
def Book.resting (b : Book) : View := fun k => do
  let slot ← b.orderIndex.lookup k
  let node ← b.arena.get slot
  pure (node.side, node.price, node.qty)

/-- A price an aggressor on side `s` may trade at; without a limit, any. -/
def Side.within (s : Side) : Option ℕ → ℕ → Prop
  | none, _ => True
  | some limit, p => s.crosses limit p

/-- The limit price of an order, none for a market order. -/
def limitPrice : OrderKind → ℕ → Option ℕ
  | .limit, p => some p
  | .market, _ => none

/-- Items of the aggressor `(a, i)` on side `s` whose quantity goes from `q` to `q'`: another order of the
account is cancelled, or a foreign order on the other side is filled at its own price. -/
inductive Items (a i : ℕ) (s : Side) (limit : Option ℕ) : View → ℕ → ℕ → List Event → Prop
  | nil {v : View} {q : ℕ} : Items a i s limit v q q []
  | own {v : View} {q q' id : ℕ} {x : ℕ × ℕ} {evs : List Event} (other : id ≠ i)
      (rests : v (a, id) = some (s.opposite, x)) (rest : Items a i s limit (Function.update v (a, id) none) q q' evs) :
      Items a i s limit v q q' (.cancelled a id :: evs)
  | trade {v : View} {q q' p x n : ℕ} {k : Key} {evs : List Event} (rests : v k = some (s.opposite, p, x))
      (foreign : k.1 ≠ a) (within : s.within limit p) (pos : 0 < n) (maker : n ≤ x) (taker : n ≤ q)
      (rest : Items a i s limit (Function.update v k (if n = x then none else some (s.opposite, p, x - n)))
        (q - n) q' evs) :
      Items a i s limit v q q'
        (.filled a i s p n (q - n) (fillState (q - n)) ::
         .filled k.1 k.2 s.opposite p n (x - n) (fillState (x - n)) :: .trade p n s :: evs)

/-- What a new order may emit: a reject; own orders cancelled and a reject; items and an answer. -/
inductive NewOrderEvents (v : View) (a i : ℕ) (s : Side) (p q : ℕ) (k : OrderKind) (t : Tif) : List Event → Prop
  | rejected (reason : RejectReason) : NewOrderEvents v a i s p q k t [.rejected a i reason]
  | wouldCross {ids : List ℕ} (own : ∀ id ∈ ids, id ≠ i ∧ ∃ x, v (a, id) = some (s.opposite, x)) :
      NewOrderEvents v a i s p q k t (ids.map (fun id => .cancelled a id) ++ [.rejected a i .wouldCross])
  | accepted {q' : ℕ} {evs : List Event} (items : Items a i s (limitPrice k p) v q q' evs) :
      NewOrderEvents v a i s p q k t
        (evs ++ [.accepted a i (if k = .limit ∧ (t = .gtc ∨ t = .postOnly) then q' else 0)])

/-- What an amend may emit: a reject; or an answer, and items of the order taken out of the book. -/
inductive CancelReplaceEvents (v : View) (a i p q : ℕ) : List Event → Prop
  | rejected (reason : RejectReason) : CancelReplaceEvents v a i p q [.rejected a i reason]
  | replaced {s : Side} {x : ℕ × ℕ} {q' : ℕ} {retained : Bool} {evs : List Event} (rests : v (a, i) = some (s, x))
      (items : Items a i s (some p) (Function.update v (a, i) none) q q' evs) :
      CancelReplaceEvents v a i p q (.replaced a i q retained :: evs)

/-- The events of a command have their shape. -/
def Transaction (v : View) : Command → List Event → Prop
  | .newOrder a i s p q k t _, evs => NewOrderEvents v a i s p q k t evs
  | .cancelReplace a i p q, evs => CancelReplaceEvents v a i p q evs
  | _, _ => True

namespace Ref

variable {r : Ref} {s : Side} {o : Order}

/-- The resting orders of the reference book. -/
def resting (r : Ref) : View := fun k => (r.find k).map (fun e => (e.1, e.2.price, e.2.qty))

theorem WF.find_iff (h : r.WF) {k : Key} : r.find k = some (s, o) ↔ o ∈ r.side s ∧ o.key = k := by
  constructor
  · exact find_some
  · rintro ⟨ho, rfl⟩
    exact h.find_mem ho

theorem WF.resting_mem (h : r.WF) (ho : o ∈ r.side s) : r.resting o.key = some (s, o.price, o.qty) := by
  unfold resting
  rw [h.find_mem ho]
  rfl

/-- Orders under other keys stay as they are. -/
theorem WF.find_congr {r' : Ref} (h : r.WF) (h' : r'.WF) {k : Key}
    (hm : ∀ s o, o.key = k → (o ∈ r'.side s ↔ o ∈ r.side s)) : r'.find k = r.find k := by
  apply Option.ext
  rintro ⟨s, o⟩
  rw [h.find_iff, h'.find_iff]
  constructor
  · rintro ⟨ho, hk⟩
    exact ⟨(hm s o hk).1 ho, hk⟩
  · rintro ⟨ho, hk⟩
    exact ⟨(hm s o hk).2 ho, hk⟩

theorem WF.resting_remove (h : r.WF) (ho : o ∈ r.side s) :
    (r.remove s o).resting = Function.update r.resting o.key none := by
  funext k
  by_cases hk : k = o.key
  · subst hk
    rw [Function.update_self]
    unfold resting
    rw [h.find_remove (h.find_mem ho)]
    rfl
  · rw [Function.update_of_ne hk]
    unfold resting
    rw [(h.find_congr (h.remove ho) (k := k) ?_)]
    intro s' o' hk'
    by_cases hs : s' = s
    · rw [hs, remove_side_self, List.mem_filter]
      simp only [ne_eq, decide_not, Bool.not_eq_eq_eq_not, Bool.not_true, decide_eq_false_iff_not, and_iff_left_iff_imp]
      intro _ he
      exact hk (hk'.symm.trans he)
    · rw [remove_side_ne _ _ hs]

theorem WF.resting_setQty (h : r.WF) (ho : o ∈ r.side s) {q : ℕ} (hq : 0 < q) :
    (r.setQty s o.key q).resting = Function.update r.resting o.key (some (s, o.price, q)) := by
  have h' := h.setQty ho hq
  funext k
  by_cases hk : k = o.key
  · have hmem : ({ o with qty := q } : Order) ∈ (r.setQty s o.key q).side s := by
      rw [setQty_side, if_pos rfl]
      exact List.mem_map.2 ⟨o, ho, if_pos rfl⟩
    rw [hk, Function.update_self]
    exact h'.resting_mem hmem
  · rw [Function.update_of_ne hk]
    unfold resting
    rw [h.find_congr h' (k := k)]
    intro s' o' hk'
    have hne : o'.key ≠ o.key := fun he => hk (hk'.symm.trans he)
    rw [setQty_side]
    by_cases hs : s' = s
    · rw [if_pos hs, hs, List.mem_map]
      constructor
      · rintro ⟨x, hx, he⟩
        by_cases hxk : x.key = o.key
        · rw [if_pos hxk] at he
          exact absurd (he ▸ hxk) hne
        · rw [if_neg hxk] at he
          exact he ▸ hx
      · intro hx
        exact ⟨o', hx, if_neg hne⟩
    · rw [if_neg hs]

variable {a i : ℕ} {limit : Option ℕ}

/-- The items that begin with an own order, and with a match. -/
theorem WF.items_own (h : r.WF) {q q' : ℕ} {evs : List Event} (ho : o ∈ r.side s.opposite) (hown : o.account = a)
    (hf : r.find (a, i) = none) (hrest : Items a i s limit (r.remove s.opposite o).resting q q' evs) :
    Items a i s limit r.resting q q' (.cancelled o.account o.id :: evs) := by
  have hkey : o.key = (a, o.id) := by rw [← hown]; rfl
  have hview := h.resting_mem ho
  rw [h.resting_remove ho, hkey] at hrest
  rw [hkey] at hview
  rw [hown]
  refine .own ?_ hview hrest
  intro he
  rw [he] at hkey
  exact find_eq_none.1 hf o (r.side_sub_orders _ o ho) hkey

theorem WF.items_trade (h : r.WF) {q q' n : ℕ} {evs : List Event} (ho : o ∈ r.side s.opposite) (hfor : o.account ≠ a)
    (hin : s.within limit o.price) (hpos : 0 < n) (hmaker : n ≤ o.qty) (htaker : n ≤ q) {r' : Ref}
    (hr' : r'.resting = Function.update r.resting o.key
      (if n = o.qty then none else some (s.opposite, o.price, o.qty - n)))
    (hrest : Items a i s limit r'.resting (q - n) q' evs) :
    Items a i s limit r.resting q q' (fillEvents a i s o n (q - n) ++ evs) := by
  rw [hr'] at hrest
  exact .trade (h.resting_mem ho) hfor hin hpos hmaker htaker hrest

/-- **A sweep emits items**, and ends with the quantity it has left. -/
theorem WF.sweep_items (h : r.WF) (lim q : ℕ) (hin : ∀ p, s.crosses lim p → s.within limit p)
    (hf : r.find (a, i) = none) :
    Items a i s limit r.resting q (r.sweep a i s lim q).2.1 (r.sweep a i s lim q).2.2 := by
  -- each turn of the sweep adds one item in front, over the view it leaves behind
  refine h.sweep_induct (motive := fun r q res => r.find (a, i) = none → Items a i s limit r.resting q res.2.1 res.2.2)
    a i s lim ?_ ?_ ?_ ?_ q hf
  · intro r q _ _ _
    exact .nil
  · intro r q o l r' q' evs h hc _ _ hown ih hf
    have ho := mem_of_cons hc
    have hf' := find_eq_none.2 fun x hx => find_eq_none.1 hf x ((h.mem_remove ho).1 hx).1
    exact h.items_own ho hown hf (ih hf')
  · intro r q o l r' q' evs h hc hx _ hfor hle ih hf
    have ho := mem_of_cons hc
    have hf' : Ref.find { r.remove s.opposite o with lastTrade := some o.price } (a, i) = none :=
      find_eq_none.2 fun x hx => find_eq_none.1 hf x ((h.mem_remove ho).1 hx).1
    refine h.items_trade ho hfor (hin _ hx) (h.pos o (r.side_sub_orders _ o ho)) (le_refl _) hle ?_ (ih hf')
    rw [if_pos rfl]
    exact h.resting_remove ho
  · intro r q o l h hc hx hq hfor hlt hf
    have ho := mem_of_cons hc
    have hrest : Items a i s limit
        (Ref.resting { r.setQty s.opposite o.key (o.qty - q) with lastTrade := some o.price }) (q - q) 0 [] := by
      rw [Nat.sub_self]
      exact .nil
    have hitems := h.items_trade (i := i) ho hfor (hin _ hx) hq (by omega) (le_refl q) (by
      rw [if_neg (by omega)]
      exact h.resting_setQty ho (by omega)) hrest
    rw [Nat.sub_self, List.append_nil] at hitems
    exact hitems

/-- The PostOnly check emits items too. -/
theorem WF.clear_items (h : r.WF) (lim q : ℕ) (hf : r.find (a, i) = none) :
    Items a i s limit r.resting q q ((r.ownPrefix a s lim).map (fun o => .cancelled o.account o.id)) := by
  refine h.clear_induct (motive := fun r _ own => r.find (a, i) = none →
    Items a i s limit r.resting q q (own.map (fun o => .cancelled o.account o.id))) a s lim ?_ ?_ hf
  · intro r _ _ _
    exact .nil
  · intro r o l r' own h hc _ hown ih hf
    have ho := mem_of_cons hc
    exact h.items_own ho hown hf (ih (find_eq_none.2 fun x hx => find_eq_none.1 hf x ((h.mem_remove ho).1 hx).1))

/-- The own orders it cancels rest on the other side. -/
theorem WF.ownPrefix_rests (h : r.WF) (lim : ℕ) (hf : r.find (a, i) = none) :
    (r.ownPrefix a s lim).map (fun o => Event.cancelled o.account o.id) =
      ((r.ownPrefix a s lim).map Order.id).map (fun id => .cancelled a id) ∧
    ∀ id ∈ (r.ownPrefix a s lim).map Order.id, id ≠ i ∧ ∃ x, r.resting (a, id) = some (s.opposite, x) := by
  have hown : ∀ o ∈ r.ownPrefix a s lim, o.account = a ∧ o ∈ r.side s.opposite := by
    intro o ho
    refine ⟨by simpa using List.mem_takeWhile_imp ho, ?_⟩
    exact (List.takeWhile_prefix _).subset ((List.takeWhile_prefix _).subset ho)
  constructor
  · exact r.ownPrefix_cancelled a s lim
  · rw [List.forall_mem_map]
    intro o ho
    obtain ⟨hacc, hside⟩ := hown o ho
    have hkey : o.key = (a, o.id) := by rw [← hacc]; rfl
    refine ⟨fun he => ?_, _, hkey ▸ h.resting_mem hside⟩
    rw [he] at hkey
    exact find_eq_none.1 hf o (r.side_sub_orders _ o hside) hkey

/-- **Every command's events have their shape.** -/
theorem Did.transaction {c : Command} {r' : Ref} {evs : List Event} (hd : Did r c r' evs) (h : r.WF)
    (hans : Answers c evs) : Transaction r.resting c evs := by
  cases hd with
  | idle quiet told =>
    rcases told with ⟨a', i', reason, rfl⟩ | rfl | ⟨engaged, rfl⟩
    · have hid := hans _ List.mem_cons_self rfl
      cases c with
      | newOrder a i s p q k t ts =>
        obtain ⟨rfl, rfl⟩ : a' = a ∧ i' = i := by simpa [eventId, commandSelfId] using hid
        exact .rejected reason
      | cancelReplace a i p q =>
        obtain ⟨rfl, rfl⟩ : a' = a ∧ i' = i := by simpa [eventId, commandSelfId] using hid
        exact .rejected reason
      | _ => trivial
    · trivial
    · trivial
  | @entered a i s p q k t ts limit rests fresh own bound drops =>
    have hin : ∀ p', s.crosses limit p' → s.within (limitPrice k p) p' := by
      intro p' hp'
      rw [bound] at hp'
      cases k with
      | limit => exact hp'
      | market => trivial
    -- what is left is reported as resting exactly for the kinds that rest
    have hacc : (if rests then (r.sweep a i s limit q).2.1 else 0) =
        if k = .limit ∧ (t = .gtc ∨ t = .postOnly) then (r.sweep a i s limit q).2.1 else 0 := by
      by_cases hr : rests = true
      · rw [if_pos hr, if_pos ⟨(own hr).1, Or.inl (own hr).2.1⟩]
      · rw [if_neg hr, if_neg (drops (by simpa using hr))]
    rw [hacc]
    exact .accepted (h.sweep_items limit q hin fresh)
  | @posted a i s p q ts fresh clear =>
    exact NewOrderEvents.accepted (t := .postOnly) (h.clear_items p q fresh)
  | @refused a i s p q ts fresh =>
    obtain ⟨hevs, hown⟩ := h.ownPrefix_rests (s := s) p fresh
    rw [hevs]
    exact .wouldCross hown
  | @amended a i q s o found pos le =>
    obtain ⟨ho, hkey⟩ := find_some found
    exact .replaced (hkey ▸ h.resting_mem ho) .nil
  | @requeued a i p q s o found pos changes =>
    obtain ⟨ho, hkey⟩ := find_some found
    have hitems : Items a i s (some p) (r.remove s o).resting q _ ((r.remove s o).sweep a i s p q).2.2 :=
      (h.remove ho).sweep_items p q (fun _ hp => hp) (h.find_remove found)
    rw [h.resting_remove ho, hkey] at hitems
    exact .replaced (hkey ▸ h.resting_mem ho) hitems
  | cancelled found => trivial
  | emptied => trivial

end Ref

/-- The book shows the resting orders of the reference book. -/
theorem Sim.resting {P : Profile} {N : ℕ∞} {b : Book} {r : Ref} (h : Sim P N b r) : b.resting = r.resting := by
  funext k
  unfold Book.resting Ref.resting
  rcases h.lookup k with ⟨hl, hf⟩ | ⟨x, n, hl, hn, -, hf⟩
  · rw [hl, hf]
    rfl
  · simp only [hl, hf, Option.bind_eq_bind, Option.bind_some, hn]
    rfl

/-- **Event transactions are well formed.** From every reachable state, what a new order or an amend emits
is a transaction over the orders that rest, and then at most one top-of-book update. -/
theorem transactions_well_formed {P : Profile} (hP : P.Total) {cmds : List Command}
    (hcmds : ∀ c ∈ cmds, c.Decodable) {e : Engine} {evss : List (List Event)}
    (hrun : Engine.new.runFrom P cmds = .ok (e, evss)) {c : Command} (hc : c.Decodable) {e' : Engine}
    {evs : List Event} (happly : e.apply P c = .ok (e', evs)) :
    ∃ core, Transaction e.book.resting c core ∧ (evs = core ∨ ∃ bid ask, evs = core ++ [.bookUpdate bid ask]) := by
  obtain ⟨r, hs⟩ := sim_of_run hP hcmds hrun
  obtain ⟨rfl, -⟩ := hs.applied hP hc happly
  refine ⟨(r.dispatch P c).2, ?_, ?_⟩
  · rw [hs.resting]
    exact (r.did P c).transaction hs.wf (hs.wf.dispatch_answers P c)
  · exact r.apply_emits P c

/-- An amend that cancels an own order and trades on its way. -/
theorem transactions_well_formed_amend :
    ∃ e evss e' evs, Engine.new.runFrom .release
        [.newOrder 1 1 .sell 101 5 .limit .gtc 0, .newOrder 2 1 .sell 100 3 .limit .gtc 0,
         .newOrder 2 2 .buy 99 4 .limit .gtc 0] = .ok (e, evss) ∧
      e.apply .release (.cancelReplace 2 2 101 6) = .ok (e', evs) ∧
      ∃ core, CancelReplaceEvents e.book.resting 2 2 101 6 core ∧
        (evs = core ∨ ∃ bid ask, evs = core ++ [.bookUpdate bid ask]) := by
  obtain ⟨⟨e, evss⟩, hrun, hok⟩ := exists_ok_of_decide (x := Engine.new.runFrom .release
      [.newOrder 1 1 .sell 101 5 .limit .gtc 0, .newOrder 2 1 .sell 100 3 .limit .gtc 0,
       .newOrder 2 2 .buy 99 4 .limit .gtc 0])
    (p := fun r => (r.1.apply .release (.cancelReplace 2 2 101 6)).isOk = true) (by decide +kernel)
  obtain ⟨⟨e', evs⟩, happly⟩ := exists_of_isOk hok
  exact ⟨e, evss, e', evs, hrun, happly,
    transactions_well_formed Profile.release_total (by decide) hrun (by decide) happly⟩

end MatchingEngine
