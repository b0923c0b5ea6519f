import MatchingEngine.Ref.WellFormed
import MatchingEngine.Lib.Commuting

/-!
# Edits of the resting orders

What a command that matches nobody does to a state: it takes orders of its account out, changes a quantity, or lets an
order join the back of its level.

* `Edit.apply_comm`: edits of different accounts commute, unless both join one level.
* `edited_comm`: so do sequences of them.
* `SameView`: two states that look the same to an account; other accounts' edits keep its view.
-/

namespace MatchingEngine

namespace Ref

/-- One change to the resting orders. -/
inductive Edit
  | take (s : Side) (o : Order)
  | resize (s : Side) (k : Key) (q : ℕ)
  | join (s : Side) (o : Order)

namespace Edit

/-- Whose order it is. -/
def account : Edit → ℕ
  | take _ o => o.account
  | resize _ k _ => k.1
  | join _ o => o.account

/-- The side it changes. -/
def side : Edit → Side
  | take s _ => s
  | resize s _ _ => s
  | join s _ => s

/-- The level an order joins. -/
def level : Edit → Option (Side × ℕ)
  | join s o => some (s, o.price)
  | _ => none

/-- The edit, done. -/
def apply (r : Ref) : Edit → Ref
  | take s o => r.remove s o
  | resize s k q => r.setQty s k q
  | join s o => r.rest s o

/-- What an edit makes of the list of its side. -/
def onList : Edit → List Order → List Order
  | take _ o, l => l.filter (fun x => x.key ≠ o.key)
  | resize _ k q, l => l.map (fun x => if x.key = k then { x with qty := q } else x)
  | join s o, l => insertBack Order.price s.better o l

/-- What it makes of its account's list. -/
def onSlots : Edit → List ℕ → List ℕ
  | take _ o, l => swapRemove l (l.idxOf o.id)
  | resize .., l => l
  | join _ o, l => l ++ [o.id]

variable (e : Edit) (r : Ref)

/-- An edit changes the list of its side. -/
theorem apply_side (s : Side) : (apply r e).side s = if s = e.side then e.onList (r.side s) else r.side s := by
  cases e with
  | take s' o => rw [apply, remove_side]; split <;> simp_all [side, onList]
  | resize s' k q => rw [apply, setQty_side]; split <;> simp_all [side, onList]
  | join s' o => rw [apply, rest_side]; split <;> simp_all [side, onList]

/-- An edit changes the list of its account. -/
theorem apply_slots (a : ℕ) :
    (apply r e).slots a = if a = e.account then e.onSlots (r.slots a) else r.slots a := by
  cases e with
  | take s o => exact remove_slots _ _ _ _
  | resize s k q => rw [apply, setQty_slots]; exact (ite_self _).symm
  | join s o => exact rest_slots _ _ _ _

theorem apply_lastTrade : (apply r e).lastTrade = r.lastTrade := by
  cases e with
  | take s o => exact remove_lastTrade _ _ _
  | resize s k q => exact setQty_lastTrade _ _ _ _
  | join s o => exact rest_lastTrade _ _ _

end Edit

/-- Both sides in priority order. -/
def Sorted (r : Ref) : Prop := ∀ s, (r.side s).Pairwise (fun o o' => s.better o.price o'.price)

variable {r r' : Ref} {a : ℕ} {s : Side} {l : List Order} {e e' : Edit}

/-- Edits keep a side sorted. -/
theorem Edit.onList_sorted (hl : l.Pairwise (fun o o' => e.side.better o.price o'.price)) :
    (e.onList l).Pairwise (fun o o' => e.side.better o.price o'.price) := by
  cases e with
  | take s o => exact hl.sublist List.filter_sublist
  | resize s k q =>
    refine List.pairwise_map.2 (hl.imp fun {o o'} h => ?_)
    have hprice : ∀ x : Order, (if x.key = k then { x with qty := q } else x).price = x.price := by
      intro x
      split <;> rfl
    rw [hprice, hprice]
    exact h
  | join s o => exact insertBack_sorted s.better_total s.better_trans o hl

theorem Sorted.apply (h : r.Sorted) (e : Edit) : (e.apply r).Sorted := by
  intro s
  rw [Edit.apply_side]
  split
  · rename_i hs
    subst hs
    exact Edit.onList_sorted (h _)
  · exact h s

/-! ### Edits of two accounts -/

section Lists

variable {k k' : Key} {q q' : ℕ} {o o' : Order}

theorem resized_key (x : Order) : (if x.key = k then { x with qty := q } else x).key = x.key := by
  split <;> rfl

/-- Another order leaves. -/
theorem take_resize (l : List Order) (k k' : Key) (q : ℕ) :
    (l.map (fun x => if x.key = k then { x with qty := q } else x)).filter (fun x => x.key ≠ k') =
      (l.filter (fun x => x.key ≠ k')).map (fun x => if x.key = k then { x with qty := q } else x) := by
  rw [List.filter_map]
  congr 1
  refine List.filter_congr fun x _ => ?_
  rw [Function.comp_apply, resized_key]

/-- Another quantity changes. -/
theorem resize_resize (hne : k ≠ k') (l : List Order) :
    (l.map (fun x => if x.key = k' then { x with qty := q' } else x)).map
        (fun x => if x.key = k then { x with qty := q } else x) =
      (l.map (fun x => if x.key = k then { x with qty := q } else x)).map
        (fun x => if x.key = k' then { x with qty := q' } else x) := by
  rw [List.map_map, List.map_map]
  refine List.map_congr_left fun x _ => ?_
  rw [Function.comp_apply, Function.comp_apply, resized_key, resized_key]
  by_cases hk : x.key = k
  · have hk' : x.key ≠ k' := hk ▸ hne
    rw [if_neg hk', if_pos hk, if_neg hk']
  · rw [if_neg hk, if_neg hk]

/-- Another order joins. -/
theorem resize_join (hne : o.key ≠ k) (l : List Order) :
    (insertBack Order.price s.better o l).map (fun x => if x.key = k then { x with qty := q } else x) =
      insertBack Order.price s.better o (l.map (fun x => if x.key = k then { x with qty := q } else x)) := by
  have hprice : ∀ x : Order, (if x.key = k then { x with qty := q } else x).price = x.price := by
    intro x
    split <;> rfl
  have hmap : insertBack Order.price s.better (if o.key = k then { o with qty := q } else o)
      (l.map (fun x => if x.key = k then { x with qty := q } else x)) =
      (insertBack Order.price s.better o l).map (fun x => if x.key = k then { x with qty := q } else x) :=
    insertBack_map (g := fun x : Order => if x.key = k then { x with qty := q } else x)
      (fun b _ => by rw [hprice, hprice])
  rw [← hmap, if_neg hne]

end Lists

theorem key_ne_of_account {k k' : Key} (hne : k.1 ≠ k'.1) : k ≠ k' := fun h => hne (congrArg Prod.fst h)

/-- **Two edits of a queue in its order commute** if they are of different accounts and do not join one level. -/
theorem Edit.onList_comm (hne : e.account ≠ e'.account) (hside : e.side = e'.side)
    (hlevel : ∀ x, e.level = some x → e'.level ≠ some x)
    (hl : l.Pairwise (fun o o' => e.side.better o.price o'.price)) :
    e.onList (e'.onList l) = e'.onList (e.onList l) := by
  cases e with
  | take s o =>
    cases e' with
    | take s' o' => exact List.filter_comm _ _ _
    | resize s' k q => exact take_resize l k o.key q
    | join s' o' =>
      obtain rfl : s = s' := hside
      exact filter_insertBack_of_sorted s.better_trans (by simpa using key_ne_of_account (Ne.symm hne)) hl
  | resize s k q =>
    cases e' with
    | take s' o' => exact (take_resize l k o'.key q).symm
    | resize s' k' q' => exact resize_resize (key_ne_of_account hne) l
    | join s' o' => exact resize_join (key_ne_of_account (Ne.symm hne)) l
  | join s o =>
    cases e' with
    | take s' o' =>
      refine (filter_insertBack_of_sorted s.better_trans ?_ hl).symm
      simpa using key_ne_of_account hne
    | resize s' k q => exact (resize_join (key_ne_of_account hne) l).symm
    | join s' o' =>
      obtain rfl : s = s' := hside
      have hprice : o.price ≠ o'.price := fun h => hlevel _ rfl (by rw [level, h])
      exact insertBack_comm s.better_total s.better_trans s.better_antisymm hprice l

/-- **Edits of different accounts commute**, unless both join one level. -/
theorem Edit.apply_comm (hne : e.account ≠ e'.account) (hlevel : ∀ x, e.level = some x → e'.level ≠ some x)
    (hr : r.Sorted) : e'.apply (e.apply r) = e.apply (e'.apply r) := by
  refine Ref.ext (fun s => ?_) (fun a => ?_) ?_
  · simp only [Edit.apply_side]
    by_cases hs : s = e.side <;> by_cases hs' : s = e'.side
    · have hl : (r.side s).Pairwise (fun o o' => e.side.better o.price o'.price) := hs ▸ hr s
      simp only [if_pos hs, if_pos hs']
      exact (Edit.onList_comm hne (hs.symm.trans hs') hlevel hl).symm
    · simp only [if_pos hs, if_neg hs']
    · simp only [if_neg hs, if_pos hs']
    · simp only [if_neg hs, if_neg hs']
  · simp only [Edit.apply_slots]
    by_cases ha : a = e.account
    · have ha' : a ≠ e'.account := ha ▸ hne
      simp only [if_pos ha, if_neg ha']
    · simp only [if_neg ha]
  · simp only [Edit.apply_lastTrade]

/-- **Sequences of edits of different accounts commute**, unless two of them join one level. -/
theorem edited_comm {es es' : List Edit} (hne : ∀ e ∈ es, ∀ e' ∈ es', e.account ≠ e'.account)
    (hlevel : ∀ e ∈ es, ∀ e' ∈ es', ∀ x, e.level = some x → e'.level ≠ some x) (hr : r.Sorted) :
    es'.foldl Edit.apply (es.foldl Edit.apply r) = es.foldl Edit.apply (es'.foldl Edit.apply r) :=
  foldl_swap Sorted (fun _ e h => h.apply e) (fun _ e h => h.apply e)
    (fun _ hr e he e' he' => Edit.apply_comm (hne e he e' he') (hlevel e he e' he') hr) hr

/-! ### What an account sees -/

/-- An account's own orders on a side. -/
def mine (r : Ref) (a : ℕ) (s : Side) : List Order := (r.side s).filter (fun o => o.account = a)

/-- Two states that look the same to account `a`. -/
structure SameView (a : ℕ) (r r' : Ref) : Prop where
  mine : ∀ s, r.mine a s = r'.mine a s
  slots : r.slots a = r'.slots a

/-- Edits leave other accounts' orders alone. -/
theorem Edit.onList_mine (hne : e.account ≠ a) (l : List Order) :
    (e.onList l).filter (fun o => o.account = a) = l.filter (fun o => o.account = a) := by
  cases e with
  | take s o =>
    show (l.filter (fun x => x.key ≠ o.key)).filter (fun o => o.account = a) = _
    rw [List.filter_filter]
    refine List.filter_congr fun x _ => ?_
    by_cases ha : x.account = a
    · have hk : x.key ≠ o.key := key_ne_of_account (ha.trans_ne (Ne.symm hne))
      simp [ha, hk]
    · simp [ha]
  | resize s k q =>
    show (l.map (fun x => if x.key = k then { x with qty := q } else x)).filter (fun o => o.account = a) = _
    induction l with
    | nil => rfl
    | cons x l ih =>
      by_cases ha : x.account = a
      · have hk : x.key ≠ k := key_ne_of_account (ha.trans_ne (Ne.symm hne))
        rw [List.map_cons, if_neg hk, List.filter_cons_of_pos (by simpa using ha), ih,
          List.filter_cons_of_pos (by simpa using ha)]
      · rw [List.map_cons, List.filter_cons_of_neg (by split <;> simpa using ha), ih,
          List.filter_cons_of_neg (by simpa using ha)]
  | join s o =>
    have ho : ¬ o.account = a := hne
    have hsplit := List.takeWhile_append_dropWhile (p := fun x : Order => decide (s.better x.price o.price)) (l := l)
    show (insertBack Order.price s.better o l).filter (fun o => o.account = a) = _
    unfold insertBack
    rw [List.filter_append, List.filter_cons_of_neg (by simpa using ho), ← List.filter_append, hsplit]

/-- **Other accounts' edits keep an account's view.** -/
theorem sameView_edited {es : List Edit} (hne : ∀ e ∈ es, e.account ≠ a) (r : Ref) :
    SameView a r (es.foldl Edit.apply r) := by
  induction es generalizing r with
  | nil => exact ⟨fun _ => rfl, rfl⟩
  | cons e es ih =>
    have hrest := ih (fun e he => hne e (List.mem_cons_of_mem _ he)) (e.apply r)
    have he := hne e List.mem_cons_self
    refine ⟨fun s => ?_, ?_⟩
    · rw [List.foldl_cons, ← hrest.mine s]
      unfold Ref.mine
      rw [Edit.apply_side]
      split
      · rw [Edit.onList_mine he]
      · rfl
    · rw [List.foldl_cons, ← hrest.slots, Edit.apply_slots, if_neg (Ne.symm he)]

/-- An account finds its orders by what it sees. -/
theorem SameView.find (h : SameView a r r') (i : ℕ) : r.find (a, i) = r'.find (a, i) := by
  have hfind : ∀ (r : Ref) (s : Side), (r.side s).find? (fun o => o.key = (a, i)) =
      (r.mine a s).find? (fun o => o.key = (a, i)) := by
    intro r s
    unfold Ref.mine
    rw [List.find?_filter]
    congr 1
    funext o
    by_cases hk : o.key = (a, i)
    · have ha : o.account = a := congrArg Prod.fst hk
      simp [hk, ha]
    · simp [hk]
  have hbuy := (hfind r .buy).trans (h.mine .buy ▸ (hfind r' .buy).symm)
  have hsell := (hfind r .sell).trans (h.mine .sell ▸ (hfind r' .sell).symm)
  unfold Ref.find
  rw [show r.bids = r.side .buy from rfl, show r.asks = r.side .sell from rfl, hbuy, hsell]
  rfl

end Ref

end MatchingEngine
