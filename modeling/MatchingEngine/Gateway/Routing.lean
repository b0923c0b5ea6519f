import MatchingEngine.Gateway.Matching
import MatchingEngine.Risk.Gate
import MatchingEngine.Ref.Quantity

/-!
# The routing table follows the book

While the events of a command pass, the table is a little ahead of or behind the book, but
always right about the orders the remaining events name:

* `Follows`: every event about another order than the command's own is a fill or a cancel,
  and finds that order's owner in the table.
* `Did.follows`: the events of every command do, and afterwards the table knows the owner of
  every resting order.
* `dispatch_answers`: `Accepted`, `Rejected` and `Replaced` are about the command's own order.
-/

namespace MatchingEngine

/-- `Accepted`, `Rejected` or `Replaced`. -/
def Event.isAnswer : Event → Bool
  | .accepted .. => true
  | .rejected .. => true
  | .replaced .. => true
  | _ => false

/-- The event says that the command put the order to rest or amended it. -/
def Event.commits (k : Key) : Event → Bool
  | .accepted a i restingQty => (a, i) = k ∧ 0 < restingQty
  | .replaced a i _ _ => (a, i) = k
  | _ => false

/-- The connection each order belongs to, after a command of `connId` that emitted `evs`. -/
def reowned (connId : ConnId) (owner : Key → Option ConnId) (evs : List Event) : Key → Option ConnId :=
  fun k => if evs.any (Event.commits k) then some connId else owner k

namespace Matching

section After

variable {connId : ConnId} {selfId : Option Key} {table : RestingConn} {ev : Event} {k k' : Key}

/-- An event changes the table at its own order only. -/
theorem lookup_after_ne (hk : eventId ev ≠ some k) : (after connId selfId table ev).lookup k = table.lookup k := by
  cases ev with
  | accepted a i q =>
    have hne : k ≠ (a, i) := fun h => hk (congrArg some h.symm)
    show (if q > 0 then _ else _ : RestingConn).lookup k = _
    split
    · exact Finmap.lookup_insert_of_ne _ hne
    · rfl
  | filled a i s p n q st =>
    have hne : k ≠ (a, i) := fun h => hk (congrArg some h.symm)
    show (if q > 0 then _ else _ : RestingConn).lookup k = _
    split
    · exact Finmap.lookup_insert_of_ne _ hne
    · exact Finmap.lookup_erase_ne hne
  | cancelled a i => exact Finmap.lookup_erase_ne (fun h => hk (congrArg some h.symm))
  | replaced a i q kept => exact Finmap.lookup_insert_of_ne _ (fun h => hk (congrArg some h.symm))
  | _ => rfl

/-- A fill that leaves quantity keeps the order where it is routed. -/
theorem lookup_after_filled {a i : ℕ} {s : Side} {p n q : ℕ} {st : FillState} (hq : 0 < q) :
    (after connId selfId table (.filled a i s p n q st)).lookup (a, i) =
      some (route connId selfId table (a, i)) := by
  show (if q > 0 then _ else _ : RestingConn).lookup (a, i) = _
  rw [if_pos hq]
  exact Finmap.lookup_insert _

/-- An order that comes to rest, or is amended, is kept where it is routed. -/
theorem lookup_after_accepted {a i q : ℕ} (hq : 0 < q) :
    (after connId selfId table (.accepted a i q)).lookup (a, i) = some (route connId selfId table (a, i)) := by
  show (if q > 0 then _ else _ : RestingConn).lookup (a, i) = _
  rw [if_pos hq]
  exact Finmap.lookup_insert _

theorem lookup_after_replaced (a i q : ℕ) (kept : Bool) :
    (after connId selfId table (.replaced a i q kept)).lookup (a, i) = some (route connId selfId table (a, i)) :=
  Finmap.lookup_insert _

theorem route_self (table : RestingConn) (k : Key) : route connId (some k) table k = connId := if_pos rfl

theorem route_other {c : ConnId} (hk : selfId ≠ some k) (hl : table.lookup k = some c) :
    route connId selfId table k = c := by
  unfold route
  rw [if_neg (fun h => hk h.symm), hl]
  rfl

end After

section Follow

variable (connId : ConnId) (selfId : Option Key) (owner : Key → Option ConnId)

/-- Every event about another order is a fill or a cancel, and finds the order's owner in the table. -/
def Follows : RestingConn → List Event → Prop
  | _, [] => True
  | table, ev :: evs =>
    (∀ k, eventId ev = some k → selfId ≠ some k →
      ev.isAnswer = false ∧ ∃ c, owner k = some c ∧ table.lookup k = some c) ∧
    Follows (after connId selfId table ev) evs

/-- The table knows the owner of every resting order. -/
def Knows (table : RestingConn) (r : Ref) : Prop :=
  ∀ k, r.qtyOf k ≠ none → ∃ c, owner k = some c ∧ table.lookup k = some c

variable {connId selfId owner} {table : RestingConn} {evs evs' : List Event}

theorem Follows.append (h : Follows connId selfId owner table evs)
    (h' : Follows connId selfId owner (evs.foldl (after connId selfId) table) evs') :
    Follows connId selfId owner table (evs ++ evs') := by
  induction evs generalizing table with
  | nil => exact h'
  | cons ev evs ih => exact ⟨h.1, ih h.2 h'⟩

/-- What an event in the middle finds. -/
theorem Follows.split {pre post : List Event} {ev : Event} (h : Follows connId selfId owner table (pre ++ ev :: post))
    {k : Key} (hid : eventId ev = some k) (hk : selfId ≠ some k) :
    ev.isAnswer = false ∧ ∃ c, owner k = some c ∧ (pre.foldl (after connId selfId) table).lookup k = some c := by
  induction pre generalizing table with
  | nil => exact h.1 k hid hk
  | cons e pre ih => exact ih h.2

/-- Events about the command's own order, or about none, are fine wherever the table stands. -/
theorem follows_own (h : ∀ ev ∈ evs, eventId ev = none ∨ eventId ev = selfId) :
    Follows connId selfId owner table evs := by
  induction evs generalizing table with
  | nil => trivial
  | cons ev evs ih =>
    refine ⟨fun k hid hk => ?_, ih (fun e he => h e (List.mem_cons_of_mem _ he))⟩
    rcases h ev List.mem_cons_self with hn | hs
    · rw [hid] at hn
      cases hn
    · exact absurd (hs.symm.trans hid) hk

/-- Quiet events leave the table alone. -/
theorem foldl_after_quiet (h : ∀ ev ∈ evs, ev.Quiet) : evs.foldl (after connId selfId) table = table := by
  induction evs with
  | nil => rfl
  | cons ev evs ih =>
    obtain ⟨hev, hevs⟩ := List.forall_mem_cons.1 h
    have hone : after connId selfId table ev = table := by
      cases ev <;> first
        | rfl
        | exact hev.elim
    rw [List.foldl_cons, hone, ih hevs]

end Follow

end Matching

namespace Ref

open Matching

variable {connId : ConnId} {owner : Key → Option ConnId} {r : Ref} {table : RestingConn}

section Walks

variable {selfId : Option Key} {s : Side} {o : Order}

/-- What the table knows about an order outlives events about others. -/
theorem known_after (connId : ConnId) (selfId : Option Key) (ev : Event) {k : Key}
    (hk : ∃ c, owner k = some c ∧ table.lookup k = some c) (hne : eventId ev ≠ some k) :
    ∃ c, owner k = some c ∧ (after connId selfId table ev).lookup k = some c := by
  rw [lookup_after_ne hne]
  exact hk

/-- The table knows the orders that are left, if the event was not about one of them. -/
theorem knows_after {r' : Ref} (connId : ConnId) (selfId : Option Key) (ev : Event) (hk : Knows owner table r)
    (h : ∀ k, r'.qtyOf k ≠ none → r.qtyOf k ≠ none ∧ eventId ev ≠ some k) :
    Knows owner (after connId selfId table ev) r' := by
  intro k hq
  obtain ⟨hr, hne⟩ := h k hq
  exact known_after connId selfId ev (hk k hr) hne

theorem WF.known (h : r.WF) (ho : o ∈ r.side s) (hk : Knows owner table r) :
    ∃ c, owner o.key = some c ∧ table.lookup o.key = some c := by
  refine hk o.key ?_
  rw [Ne, qtyOf_none, h.find_mem ho]
  simp

theorem WF.qtyOf_remove_ne (h : r.WF) (ho : o ∈ r.side s) {k : Key} (hq : (r.remove s o).qtyOf k ≠ none) :
    r.qtyOf k ≠ none ∧ some o.key ≠ some k := by
  rw [h.qtyOf_remove ho] at hq
  by_cases hk : k = o.key
  · rw [if_pos hk] at hq
    exact absurd rfl hq
  · rw [if_neg hk] at hq
    exact ⟨hq, fun he => hk (Option.some.inj he).symm⟩

variable {a i : ℕ}

/-- **The events of one match**: the maker is found in the table, and stays in it if it stays in the book. -/
theorem WF.follows_fill (h : r.WF) (connId : ConnId) (hf : r.find (a, i) = none) (ho : o ∈ r.side s.opposite)
    (hk : Knows owner table r) (n rem : ℕ) (r' : Ref)
    (hr' : ∀ k, r'.qtyOf k ≠ none → r.qtyOf k ≠ none ∧ (o.qty - n = 0 → k ≠ o.key)) :
    Follows connId (some (a, i)) owner table (fillEvents a i s o n rem) ∧
    Knows owner ((fillEvents a i s o n rem).foldl (Matching.after connId (some (a, i))) table) r' := by
  have hne : o.key ≠ (a, i) := find_eq_none.1 hf o (r.side_sub_orders _ o ho)
  -- the aggressor's fill touches its own entry only
  have hk1 : Knows owner (Matching.after connId (some (a, i)) table (.filled a i s o.price n rem
      (if rem = 0 then .filled else .partiallyFilled))) r := by
    refine knows_after connId _ _ hk fun k hq => ⟨hq, fun he => hq ?_⟩
    rw [← Option.some.inj he]
    exact qtyOf_none.2 hf
  obtain ⟨c, howner, hlookup⟩ := h.known ho hk1
  refine ⟨⟨?_, ?_, ?_, trivial⟩, ?_⟩
  · intro k hid hself
    exact absurd hid hself
  · intro k hid _
    refine ⟨rfl, c, ?_⟩
    rw [← Option.some.inj hid]
    exact ⟨howner, hlookup⟩
  · intro k hid
    cases hid
  · intro k hq
    obtain ⟨hold, hgone⟩ := hr' k hq
    show ∃ c, owner k = some c ∧ (Matching.after connId (some (a, i)) _ (.filled o.account o.id s.opposite o.price n
      (o.qty - n) (if o.qty - n = 0 then .filled else .partiallyFilled))).lookup k = some c
    by_cases hko : k = o.key
    · have hpos : 0 < o.qty - n := by
        by_contra hz
        exact hgone (by omega) hko
      refine ⟨c, hko ▸ howner, ?_⟩
      rw [hko, show o.key = (o.account, o.id) from rfl, lookup_after_filled hpos]
      exact congrArg some (route_other (fun he => hne (Option.some.inj he).symm) hlookup)
    · obtain ⟨c', howner', hlookup'⟩ := hk1 k hold
      refine ⟨c', howner', (lookup_after_ne ?_).trans hlookup'⟩
      intro he
      exact hko (Option.some.inj he).symm

/-- **The events of a sweep**: each maker is found in the table. -/
theorem WF.follows_sweep (h : r.WF) (connId : ConnId) (limit q : ℕ) (hf : r.find (a, i) = none) (hk : Knows owner table r) :
    Follows connId (some (a, i)) owner table (r.sweep a i s limit q).2.2 ∧
    Knows owner ((r.sweep a i s limit q).2.2.foldl (Matching.after connId (some (a, i))) table)
      (r.sweep a i s limit q).1 := by
  have hfind : ∀ {r : Ref} {o : Order}, r.WF → o ∈ r.side s.opposite → r.find (a, i) = none →
      (r.remove s.opposite o).find (a, i) = none := by
    intro r o h ho hf
    rw [find_eq_none] at hf ⊢
    intro x hx
    exact hf x ((h.mem_remove ho).1 hx).1
  refine h.sweep_induct (motive := fun r _ res => r.find (a, i) = none → ∀ table : RestingConn,
    Knows owner table r → Follows connId (some (a, i)) owner table res.2.2 ∧
      Knows owner (res.2.2.foldl (Matching.after connId (some (a, i))) table) res.1) a i s limit ?_ ?_ ?_ ?_ q hf
    table hk
  · intro r q _ _ _ table hk
    exact ⟨trivial, hk⟩
  · intro r q o l r' q' evs h hc _ _ _ ih hf table hk
    have ho := mem_of_cons hc
    obtain ⟨h1, h2⟩ := ih (hfind h ho hf) _ (knows_after connId (some (a, i)) (.cancelled o.account o.id) hk
      (fun k hq => h.qtyOf_remove_ne ho hq))
    refine ⟨⟨fun k hid _ => ⟨rfl, ?_⟩, h1⟩, h2⟩
    rw [← Option.some.inj hid]
    exact h.known ho hk
  · intro r q o l r' q' evs h hc _ hq _ hle ih hf table hk
    have ho := mem_of_cons hc
    obtain ⟨h1, h2⟩ := h.follows_fill connId hf ho hk o.qty (q - o.qty)
      { r.remove s.opposite o with lastTrade := some o.price } (fun k hq' => by
        obtain ⟨hold, hne⟩ := h.qtyOf_remove_ne ho hq'
        exact ⟨hold, fun _ he => hne (congrArg some he.symm)⟩)
    obtain ⟨i1, i2⟩ := ih (hfind h ho hf) _ h2
    refine ⟨h1.append i1, ?_⟩
    simp only [List.foldl_append]
    exact i2
  · intro r q o l h hc _ hq _ hlt hf table hk
    have ho := mem_of_cons hc
    refine h.follows_fill connId hf ho hk q 0 _ fun k hq' => ?_
    have hpos : 0 < o.qty - q := by omega
    rw [qtyOf_withTrade, h.qtyOf_setQty ho hpos] at hq'
    refine ⟨?_, fun hz => by omega⟩
    by_cases hko : k = o.key
    · rw [hko, Ne, qtyOf_none, h.find_mem ho]
      simp
    · rwa [if_neg hko] at hq'

/-- An aggressor in the table stays there as long as it has quantity left. -/
theorem WF.sweep_keeps_self (h : r.WF) (limit q : ℕ) (hf : r.find (a, i) = none)
    (h0 : table.lookup (a, i) = some connId) (hpos : 0 < (r.sweep a i s limit q).2.1) :
    ((r.sweep a i s limit q).2.2.foldl (Matching.after connId (some (a, i))) table).lookup (a, i) = some connId := by
  refine (h.sweep_induct (motive := fun r q res => r.find (a, i) = none → res.2.1 ≤ q ∧ ∀ table : RestingConn,
    table.lookup (a, i) = some connId → 0 < res.2.1 →
      (res.2.2.foldl (Matching.after connId (some (a, i))) table).lookup (a, i) = some connId)
    a i s limit ?_ ?_ ?_ ?_ q hf).2 table h0 hpos
  · intro r q _ _ _
    exact ⟨le_refl q, fun table h0 _ => h0⟩
  · intro r q o l r' q' evs h hc _ _ _ ih hf
    have ho := mem_of_cons hc
    have hne : o.key ≠ (a, i) := find_eq_none.1 hf o (r.side_sub_orders _ o ho)
    obtain ⟨hle, hkeep⟩ := ih (find_eq_none.2 fun x hx => find_eq_none.1 hf x ((h.mem_remove ho).1 hx).1)
    refine ⟨hle, fun table h0 hpos => hkeep _ ?_ hpos⟩
    refine (@lookup_after_ne _ _ _ (.cancelled o.account o.id) _ ?_).trans h0
    intro he
    exact hne (Option.some.inj he)
  · intro r q o l r' q' evs h hc _ hq _ hle ih hf
    have ho := mem_of_cons hc
    have hne : o.key ≠ (a, i) := find_eq_none.1 hf o (r.side_sub_orders _ o ho)
    obtain ⟨hle', hkeep⟩ := ih (find_eq_none.2 fun x hx => find_eq_none.1 hf x ((h.mem_remove ho).1 hx).1)
    simp only at hle' ⊢
    refine ⟨by omega, fun table h0 hpos => ?_⟩
    rw [List.foldl_append]
    refine hkeep _ ?_ hpos
    show (Matching.after connId _ (Matching.after connId _ table _) (.filled o.account o.id s.opposite o.price o.qty
      (o.qty - o.qty) (if o.qty - o.qty = 0 then .filled else .partiallyFilled))).lookup (a, i) = _
    refine (lookup_after_ne ?_).trans ?_
    · intro he
      exact hne (Option.some.inj he)
    · rw [lookup_after_filled (by omega), route_self]
  · intro r q o l _ _ _ _ _ _ _
    exact ⟨Nat.zero_le q, fun table _ hpos => absurd hpos (Nat.lt_irrefl 0)⟩

/-- The own orders the PostOnly check cancels are found in the table. -/
theorem WF.follows_clear (h : r.WF) (connId : ConnId) (selfId : Option Key) (a limit : ℕ)
    (hk : Knows owner table r) :
    Follows connId selfId owner table ((r.ownPrefix a s limit).map (fun o => .cancelled o.account o.id)) ∧
    Knows owner (((r.ownPrefix a s limit).map (fun o => .cancelled o.account o.id)).foldl
      (Matching.after connId selfId) table) (r.clearOwn a s limit) := by
  refine h.clear_induct (motive := fun r r' own => ∀ table : RestingConn, Knows owner table r →
    Follows connId selfId owner table (own.map (fun o => .cancelled o.account o.id)) ∧
    Knows owner ((own.map (fun o => .cancelled o.account o.id)).foldl (Matching.after connId selfId) table) r')
    a s limit ?_ ?_ table hk
  · intro r _ _ table hk
    exact ⟨trivial, hk⟩
  · intro r o l r' own h hc _ _ ih table hk
    have ho := mem_of_cons hc
    obtain ⟨h1, h2⟩ := ih _ (knows_after connId selfId (.cancelled o.account o.id) hk
      (fun k hq => h.qtyOf_remove_ne ho hq))
    refine ⟨⟨fun k hid _ => ⟨rfl, ?_⟩, h1⟩, h2⟩
    rw [← Option.some.inj hid]
    exact h.known ho hk

/-- So are the orders of a mass cancel, each once. -/
theorem WF.follows_massCancel (h : r.WF) (connId : ConnId) (selfId : Option Key) (a : ℕ) {ids : List ℕ} (hn : ids.Nodup)
    (hin : ∀ id ∈ ids, r.qtyOf (a, id) ≠ none) (hk : Knows owner table r) :
    Follows connId selfId owner table (ids.map (fun id => .cancelled a id)) ∧
    Knows owner ((ids.map (fun id => .cancelled a id)).foldl (Matching.after connId selfId) table)
      (ids.foldl (fun r id => r.removeKey (a, id)) r) := by
  induction ids generalizing r table with
  | nil => exact ⟨trivial, hk⟩
  | cons i ids ih =>
    obtain ⟨hni, hn⟩ := List.nodup_cons.1 hn
    obtain ⟨hi, hin⟩ := List.forall_mem_cons.1 hin
    have hin' : ∀ id ∈ ids, (r.removeKey (a, i)).qtyOf (a, id) ≠ none := by
      intro id hid
      rw [h.qtyOf_removeKey, if_neg]
      · exact hin id hid
      · intro he
        exact hni ((Prod.mk.inj he).2 ▸ hid)
    have hk' : Knows owner (Matching.after connId selfId table (.cancelled a i)) (r.removeKey (a, i)) := by
      refine knows_after connId _ _ hk fun k hq => ?_
      rw [h.qtyOf_removeKey] at hq
      by_cases hki : k = (a, i)
      · rw [if_pos hki] at hq
        exact absurd rfl hq
      · rw [if_neg hki] at hq
        exact ⟨hq, fun he => hki (Option.some.inj he).symm⟩
    obtain ⟨h1, h2⟩ := ih (h.removeKey (a, i)) hn hin' hk'
    refine ⟨⟨fun k hid _ => ⟨rfl, ?_⟩, h1⟩, h2⟩
    rw [← Option.some.inj hid]
    exact hk (a, i) hi

end Walks

/-! ### Answers -/

/-- The answers among the events are about the command's own order. -/
def Answers (c : Command) (evs : List Event) : Prop :=
  ∀ ev ∈ evs, ev.isAnswer = true → eventId ev = commandSelfId c

section Answer

variable {c : Command} {a i : ℕ}

theorem WF.sweep_noAnswer (h : r.WF) (a i : ℕ) (s : Side) (limit q : ℕ) :
    ∀ ev ∈ (r.sweep a i s limit q).2.2, ev.isAnswer = false := by
  intro ev hev
  have hmatch := h.sweep_matches a i s limit q ev hev
  cases ev <;> first
    | rfl
    | cases hmatch

/-- Silent events and then one about the command's own order. -/
theorem answers_append {evs : List Event} {ev : Event} (h : ∀ ev ∈ evs, ev.isAnswer = false)
    (hev : eventId ev = commandSelfId c) : Answers c (evs ++ [ev]) := by
  intro e he ha
  rcases List.mem_append.1 he with he | he
  · rw [h e he] at ha
    cases ha
  · rw [List.mem_singleton.1 he]
    exact hev

theorem answers_singleton {ev : Event} (hev : eventId ev = commandSelfId c) : Answers c [ev] :=
  @answers_append _ [] _ (fun _ h => absurd h List.not_mem_nil) hev

theorem answers_silent {evs : List Event} (h : ∀ ev ∈ evs, ev.isAnswer = false) : Answers c evs := by
  intro e he ha
  rw [h e he] at ha
  cases ha

theorem answers_unlessDuplicate {res : Ref × List Event} (hself : commandSelfId c = some (a, i))
    (h : Answers c res.2) : Answers c (r.unlessDuplicate a i res).2 := by
  unfold unlessDuplicate
  split
  · exact answers_singleton hself.symm
  · exact h

/-- **Answers are about the command's own order.** -/
theorem WF.dispatch_answers (h : r.WF) (P : Profile) (c : Command) : Answers c (r.dispatch P c).2 := by
  cases c with
  | newOrder a i s p q k t ts =>
    have hsweep : ∀ limit ev, eventId ev = commandSelfId (.newOrder a i s p q k t ts) →
        Answers (.newOrder a i s p q k t ts) ((r.sweep a i s limit q).2.2 ++ [ev]) :=
      fun limit ev hev => answers_append (h.sweep_noAnswer a i s limit q) hev
    cases k with
    | market => exact answers_unlessDuplicate rfl (hsweep _ _ rfl)
    | limit =>
      cases t with
      | gtc => exact answers_unlessDuplicate rfl (hsweep _ _ rfl)
      | ioc => exact answers_unlessDuplicate rfl (hsweep _ _ rfl)
      | fok =>
        refine answers_unlessDuplicate rfl ?_
        split
        · exact hsweep _ _ rfl
        · exact answers_singleton rfl
      | postOnly =>
        have hown : ∀ ev ∈ (r.ownPrefix a s p).map (fun o => Event.cancelled o.account o.id), ev.isAnswer = false := by
          rw [List.forall_mem_map]
          exact fun _ _ => rfl
        refine answers_unlessDuplicate rfl ?_
        split
        · exact answers_append hown rfl
        · exact answers_append hown rfl
  | cancelOrder a i =>
    show Answers _ (r.cancel a i).2
    unfold cancel
    split
    · exact answers_singleton rfl
    · exact answers_singleton rfl
  | cancelReplace a i p q =>
    show Answers _ (r.modify a i p q).2
    unfold modify
    split
    · exact answers_singleton rfl
    · split
      · exact answers_singleton rfl
      · next s o hf =>
        split
        · exact answers_singleton rfl
        · intro ev hev
          rcases List.mem_cons.1 hev with rfl | hev
          · exact fun _ => rfl
          · exact answers_silent ((h.remove (find_some hf).1).sweep_noAnswer a i s p q) ev hev
  | massCancel a =>
    refine answers_silent ?_
    show ∀ ev ∈ (r.slots a).map (fun id => Event.cancelled a id), _
    rw [List.forall_mem_map]
    exact fun _ _ => rfl
  | killSwitch e => exact answers_silent (fun _ hev => absurd hev List.not_mem_nil)
  | snapshot =>
    refine answers_silent ?_
    intro ev hev
    simp only [dispatch, snapshot, snapshotLevels, List.mem_append, List.mem_map, List.mem_singleton] at hev
    rcases hev with ((⟨p, -, rfl⟩ | ⟨p, -, rfl⟩) | ⟨a, -, rfl⟩) | rfl <;> rfl

/-- The top-of-book update answers nobody. -/
theorem WF.apply_answers (h : r.WF) (P : Profile) (c : Command) : Answers c (r.apply P c).2 := by
  rcases r.apply_emits P c with he | ⟨bid, ask, he⟩
  · rw [he]
    exact h.dispatch_answers P c
  · rw [he]
    intro ev hev ha
    rcases List.mem_append.1 hev with hev | hev
    · exact h.dispatch_answers P c ev hev ha
    · rw [List.mem_singleton.1 hev] at ha
      cases ha

end Answer

/-! ### Owners -/

section Owner

variable {c : Command} {r' : Ref} {evs : List Event} {selfId : Option Key}

/-- A commitment is an answer, about its order. -/
theorem Answers.commits (h : Answers c evs) {k : Key} (hc : evs.any (Event.commits k) = true) :
    commandSelfId c = some k := by
  obtain ⟨ev, hev, hk⟩ := List.any_eq_true.1 hc
  cases ev with
  | accepted a i q =>
    simp only [Event.commits, decide_eq_true_eq] at hk
    rw [← h _ hev rfl, ← hk.1]
    rfl
  | replaced a i q kept =>
    simp only [Event.commits, decide_eq_true_eq] at hk
    rw [← h _ hev rfl, ← hk]
    rfl
  | _ => simp [Event.commits] at hk

/-- The owners after a command: nothing changes for other orders, and its own order belongs to the
connection if the command committed it. -/
theorem Answers.knows (h : Answers c evs) (hother : ∀ k, commandSelfId c ≠ some k → r'.qtyOf k ≠ none →
      ∃ x, owner k = some x ∧ table.lookup k = some x)
    (hself : ∀ k, commandSelfId c = some k → r'.qtyOf k ≠ none →
      evs.any (Event.commits k) = true ∧ table.lookup k = some connId) :
    Knows (reowned connId owner evs) table r' := by
  intro k hq
  unfold reowned
  by_cases hk : commandSelfId c = some k
  · obtain ⟨hcom, hl⟩ := hself k hk hq
    rw [if_pos hcom]
    exact ⟨connId, rfl, hl⟩
  · rw [if_neg (fun hcom => hk (h.commits hcom))]
    exact hother k hk hq

/-- Quiet events: nobody's order changes hands. -/
theorem follows_quiet (connId : ConnId) (quiet : ∀ ev ∈ evs, ev.Quiet) (hans : Answers c evs) (hk : Knows owner table r) :
    Follows connId (commandSelfId c) owner table evs ∧
    Knows (reowned connId owner evs) (evs.foldl (Matching.after connId (commandSelfId c)) table) r := by
  refine ⟨follows_own fun ev hev => ?_, ?_⟩
  · have hq := quiet ev hev
    cases ev <;> first
      | exact Or.inl rfl
      | exact hq.elim
      | exact Or.inr (hans _ hev rfl)
  · rw [foldl_after_quiet quiet]
    intro k hq
    have hnone : evs.any (Event.commits k) = false := by
      rw [List.any_eq_false]
      intro ev hev
      have hq := quiet ev hev
      cases ev <;> first
        | exact hq.elim
        | simp [Event.commits]
    unfold reowned
    rw [hnone]
    exact hk k hq

/-- A new order that was matched: its fills follow the makers, and the table learns where the rest of it is. -/
theorem WF.follows_entered (h : r.WF) (connId : ConnId) {s : Side} {p q : ℕ} {kind : OrderKind} {t : Tif} {ts limit : ℕ}
    {rests : Bool} (fresh : r.find (a, i) = none) {evs : List Event}
    (hevs : evs = (r.sweep a i s limit q).2.2 ++ [.accepted a i (if rests then (r.sweep a i s limit q).2.1 else 0)])
    (hans : Answers (.newOrder a i s p q kind t ts) evs) (hk : Knows owner table r) :
    Follows connId (commandSelfId (.newOrder a i s p q kind t ts)) owner table evs ∧
    Knows (reowned connId owner evs) (evs.foldl (Matching.after connId (commandSelfId (.newOrder a i s p q kind t ts))) table)
      (if rests then (r.sweep a i s limit q).1.restRemainder a i s p (r.sweep a i s limit q).2.1
        else (r.sweep a i s limit q).1) := by
  subst hevs
  obtain ⟨h1, h2⟩ := h.follows_sweep connId (s := s) limit q fresh hk
  have hgone : (r.sweep a i s limit q).1.find (a, i) = none := h.sweep_find fresh
  refine ⟨h1.append (follows_own (fun ev hev => Or.inr (List.mem_singleton.1 hev ▸ rfl))), hans.knows ?_ ?_⟩
  · intro k hself hq
    have hki : k ≠ (a, i) := fun he => hself (congrArg some he.symm)
    rw [List.foldl_append]
    refine known_after connId (some (a, i)) (.accepted a i _) (h2 k ?_) hself
    split at hq
    · rwa [h.sweep_wf.qtyOf_restRemainder hgone, if_neg hki] at hq
    · exact hq
  · intro k hself hq
    obtain rfl := Option.some.inj hself
    by_cases hr : rests = true
    · simp only [if_pos hr] at hq ⊢
      rw [h.sweep_wf.qtyOf_restRemainder hgone, if_pos rfl] at hq
      have hpos : 0 < (r.sweep a i s limit q).2.1 := by
        by_contra hz
        exact hq (if_pos (by omega))
      refine ⟨by simp [Event.commits, hpos], ?_⟩
      rw [List.foldl_append]
      exact (lookup_after_accepted hpos).trans (congrArg some (route_self _ _))
    · rw [if_neg hr] at hq
      exact absurd (qtyOf_none.2 hgone) hq

/-- An amend that goes out and back in: the table learns of it before its fills. -/
theorem WF.follows_requeued (h : r.WF) (connId : ConnId) {p q : ℕ} {s : Side} {o : Order}
    (found : r.find (a, i) = some (s, o)) {evs : List Event}
    (hevs : evs = .replaced a i q false :: ((r.remove s o).sweep a i s p q).2.2)
    (hans : Answers (.cancelReplace a i p q) evs) (hk : Knows owner table r) :
    Follows connId (commandSelfId (.cancelReplace a i p q)) owner table evs ∧
    Knows (reowned connId owner evs) (evs.foldl (Matching.after connId (commandSelfId (.cancelReplace a i p q))) table)
      (((r.remove s o).sweep a i s p q).1.restRemainder a i s p ((r.remove s o).sweep a i s p q).2.1) := by
  subst hevs
  obtain ⟨ho, hkey⟩ := find_some found
  have hw := h.remove ho
  have hfresh := h.find_remove found
  have hgone : ((r.remove s o).sweep a i s p q).1.find (a, i) = none := hw.sweep_find hfresh
  have hk' : Knows owner (Matching.after connId (some (a, i)) table (.replaced a i q false)) (r.remove s o) := by
    refine knows_after connId _ _ hk fun k hq => ?_
    have hne := h.qtyOf_remove_ne ho hq
    rw [hkey] at hne
    exact hne
  obtain ⟨h1, h2⟩ := hw.follows_sweep connId (s := s) p q hfresh hk'
  refine ⟨⟨fun k hid hself => absurd hid hself, h1⟩, hans.knows ?_ ?_⟩
  · intro k hself hq
    refine h2 k ?_
    rwa [hw.sweep_wf.qtyOf_restRemainder hgone, if_neg (fun he => hself (congrArg some he.symm))] at hq
  · intro k hself hq
    obtain rfl := Option.some.inj hself
    rw [hw.sweep_wf.qtyOf_restRemainder hgone, if_pos rfl] at hq
    refine ⟨by simp [Event.commits], hw.sweep_keeps_self p q hfresh ?_ ?_⟩
    · exact (lookup_after_replaced a i q false).trans (congrArg some (route_self _ _))
    · by_contra hz
      exact hq (if_pos (by omega))

/-- **Every command's events find the table right, and leave it so.** -/
theorem Did.follows {P : Profile} (hd : Did r c r' evs) (connId : ConnId) (h : r.WF) (hc : c.Checked P)
    (hans : Answers c evs) (hk : Knows owner table r) :
    Follows connId (commandSelfId c) owner table evs ∧
    Knows (reowned connId owner evs) (evs.foldl (Matching.after connId (commandSelfId c)) table) r' := by
  cases hd with
  | idle quiet told =>
    exact follows_quiet connId quiet hans hk
  | @entered a i s p q kind t ts limit rests fresh own =>
    exact h.follows_entered connId fresh rfl hans hk
  | @posted a i s p q ts fresh clear =>
    obtain ⟨h1, h2⟩ := h.follows_clear connId (some (a, i)) (s := s) a p hk
    have hq0 : 0 < (⟨a, i, p, q⟩ : Order).qty := Nat.pos_of_ne_zero hc.1
    have hf : (r.clearOwn a s p).find (⟨a, i, p, q⟩ : Order).key = none := h.clear_find fresh
    refine ⟨h1.append (follows_own (fun ev hev => Or.inr (List.mem_singleton.1 hev ▸ rfl))), hans.knows ?_ ?_⟩
    · intro k hself hq
      rw [List.foldl_append]
      refine known_after connId (some (a, i)) (.accepted a i q) (h2 k ?_) hself
      rwa [h.clear_wf.qtyOf_rest hf hq0, if_neg (fun he => hself (congrArg some he.symm))] at hq
    · intro k hself _
      obtain rfl := Option.some.inj hself
      refine ⟨by simp [Event.commits, Nat.pos_of_ne_zero hc.1], ?_⟩
      rw [List.foldl_append]
      exact (lookup_after_accepted hq0).trans (congrArg some (route_self _ _))
  | @refused a i s p q ts fresh =>
    obtain ⟨h1, h2⟩ := h.follows_clear connId (some (a, i)) (s := s) a p hk
    refine ⟨h1.append (follows_own (fun ev hev => Or.inr (List.mem_singleton.1 hev ▸ rfl))), hans.knows ?_ ?_⟩
    · intro k hself hq
      rw [List.foldl_append]
      exact known_after connId (some (a, i)) (.rejected a i .wouldCross) (h2 k hq) hself
    · intro k hself hq
      obtain rfl := Option.some.inj hself
      exact absurd (qtyOf_none.2 (h.clear_find fresh)) hq
  | @amended a i q s o found pos le =>
    obtain ⟨ho, hkey⟩ := find_some found
    refine ⟨follows_own (fun ev hev => Or.inr (List.mem_singleton.1 hev ▸ rfl)), hans.knows ?_ ?_⟩
    · intro k hself hq
      refine known_after connId (some (a, i)) (.replaced a i q true) (hk k ?_) hself
      rwa [h.qtyOf_setQty ho pos, hkey, if_neg (fun he => hself (congrArg some he.symm))] at hq
    · intro k hself _
      obtain rfl := Option.some.inj hself
      exact ⟨by simp [Event.commits], (lookup_after_replaced a i q true).trans (congrArg some (route_self _ _))⟩
  | @requeued a i p q s o found pos changes =>
    exact h.follows_requeued connId found rfl hans hk
  | @cancelled a i s o found =>
    obtain ⟨ho, hkey⟩ := find_some found
    refine ⟨follows_own (fun ev hev => Or.inr (List.mem_singleton.1 hev ▸ rfl)), hans.knows ?_ ?_⟩
    · intro k hself hq
      exact known_after connId (some (a, i)) (.cancelled a i) (hk k (h.qtyOf_remove_ne ho hq).1) hself
    · intro k hself hq
      obtain rfl := Option.some.inj hself
      exact absurd (congrArg some hkey) (h.qtyOf_remove_ne ho hq).2
  | @emptied a =>
    have hin : ∀ id ∈ r.slots a, r.qtyOf (a, id) ≠ none := by
      intro id hid
      obtain ⟨o, ho, hkey⟩ := (h.slots_mem a id).1 hid
      rw [Ne, qtyOf_none, find_eq_none]
      exact fun hall => hall o ho hkey
    obtain ⟨h1, h2⟩ := h.follows_massCancel connId none a (h.slots_nodup a) hin hk
    refine ⟨h1, hans.knows (fun k _ hq => h2 k hq) ?_⟩
    intro k hself
    cases hself

/-- The top-of-book update follows the rest. -/
theorem WF.follows_apply (h : r.WF) {P : Profile} (connId : ConnId) (hc : c.Checked P) (hk : Knows owner table r) :
    Follows connId (commandSelfId c) owner table (r.apply P c).2 ∧
    Knows (reowned connId owner (r.apply P c).2)
      ((r.apply P c).2.foldl (Matching.after connId (commandSelfId c)) table) (r.apply P c).1 := by
  obtain ⟨h1, h2⟩ := (r.did P c).follows connId h hc (h.dispatch_answers P c) hk
  rcases r.apply_emits P c with he | ⟨bid, ask, he⟩
  · rw [he]
    exact ⟨h1, h2⟩
  · have hown : reowned connId owner ((r.dispatch P c).2 ++ [.bookUpdate bid ask]) =
        reowned connId owner (r.dispatch P c).2 := by
      unfold reowned
      simp [Event.commits]
    rw [he]
    refine ⟨h1.append ⟨fun k hid => (by cases hid), trivial⟩, ?_⟩
    rw [hown, List.foldl_append]
    exact h2

end Owner


end Ref

/-- The gate rejects in the name of the command's own order. -/
theorem RiskState.preApplyCheck_answers {P : Profile} {s s' : RiskState} {cmd : Command} {b : Book} {ev : Event}
    (h : s.preApplyCheck P cmd b = .ok (s', some ev)) :
    ∃ a i reason, ev = .rejected a i reason ∧ commandSelfId cmd = some (a, i) := by
  obtain ⟨-, hrej, -⟩ := preApplyCheck_cases h
  obtain ⟨a, i, reason, rfl⟩ := hrej _ rfl
  refine ⟨a, i, reason, rfl, ?_⟩
  cases cmd with
  | newOrder a' i' side p q k t ts =>
    by_cases hk : s.killSwitchEngaged = true
    · simp only [preApplyCheck, hk, if_true, killSwitchCheck, Except.ok.injEq, Prod.mk.injEq, Option.some.injEq,
        Event.rejected.injEq] at h
      rw [← h.2.1, ← h.2.2.1]
      rfl
    · obtain ⟨-, hn⟩ := preApplyCheck_newOrder hk h
      obtain ⟨reason', hr⟩ := newOrderCheck_quiet hn
      simp only [Event.rejected.injEq] at hr
      rw [hr.1, hr.2.1]
      rfl
  | cancelReplace a' i' p q =>
    have hks : killSwitchCheck (.cancelReplace a' i' p q) b = some (.rejected a i reason) := by
      by_cases hk : s.killSwitchEngaged = true
      · cases hc : killSwitchCheck (.cancelReplace a' i' p q) b with
        | none => simp [preApplyCheck, hk, hc] at h
        | some ev =>
          simp only [preApplyCheck, hk, if_true, hc, Except.ok.injEq, Prod.mk.injEq] at h
          exact h.2
      · simp [preApplyCheck, hk] at h
    unfold killSwitchCheck at hks
    simp only at hks
    split at hks
    · cases hks
    · split at hks
      · simp only [Option.some.injEq, Event.rejected.injEq] at hks
        rw [← hks.1, ← hks.2.1]
        rfl
      · cases hks
  | _ => simp [preApplyCheck, killSwitchCheck] at h

end MatchingEngine
