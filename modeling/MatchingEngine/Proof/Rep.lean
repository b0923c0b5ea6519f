import MatchingEngine.Core.Engine
import MatchingEngine.Ref.WellFormed
import MatchingEngine.Lib.Linked

/-!
# The representation invariant

`Rep P b R`: the book `b` represents the labelled order lists `R`, per side the
resting orders in priority order, each with the arena slot it lives in. The links of
a level, its cached aggregates, the order index, the account arrays and the free
list are all functions of `R` up to the choice of slots.

* `Rep.split`: a live slot's level, cut at that slot.
* `Rep.mem_map_iff`: the price maps hold exactly the occupied prices.
-/

namespace MatchingEngine

def Node.order (n : Node) : Order := ⟨n.account, n.id, n.price, n.qty⟩

theorem Node.order_key (n : Node) : n.order.key = n.key := rfl

/-- Resting orders with their slots. -/
abbrev Slotted := ℕ × Order

/-- The level at price `p` of a labelled list. -/
def levelOf (l : List Slotted) (p : ℕ) : List Slotted := l.filter (fun e => e.2.price = p)

/-- The slots of a level, head first. -/
def chainOf (l : List Slotted) (p : ℕ) : List ℕ := (levelOf l p).map Prod.fst

/-- The orders without their slots. -/
def plain (l : List Slotted) : List Order := l.map Prod.snd

namespace Book

/-- An account's slot array, empty for an account without an entry. -/
def slotsOf (b : Book) (a : ℕ) : List ℕ := ((b.accounts.lookup a).map AccountEntry.slots).getD []

/-- The slot's position in its account's array. -/
def acctIdx (b : Book) (slot : ℕ) : ℕ := ((b.arena.get slot).map Node.acctIdx).getD 0

/-- The slot is live and owned by the account. -/
def Owned (b : Book) (a slot : ℕ) : Prop := ∃ n, b.arena.get slot = some n ∧ n.account = a

section Fields

variable (b : Book) (s s' : Side) (m : PriceMap)

@[simp] theorem setMap_arena : (b.setMap s m).arena = b.arena := by cases s <;> rfl
@[simp] theorem setMap_orderIndex : (b.setMap s m).orderIndex = b.orderIndex := by cases s <;> rfl
@[simp] theorem setMap_accounts : (b.setMap s m).accounts = b.accounts := by cases s <;> rfl
@[simp] theorem setMap_lastTrade : (b.setMap s m).lastTrade = b.lastTrade := by cases s <;> rfl

theorem setMap_map : (b.setMap s m).map s' = if s' = s then m else b.map s' := by
  cases s <;> cases s' <;> simp [setMap, map]

end Fields

end Book

theorem lookup_insert_if {κ β : Type*} [DecidableEq κ] (m : Finmap (fun _ : κ => β)) (k k' : κ) (v : β) :
    (m.insert k v).lookup k' = if k' = k then some v else m.lookup k' := by
  by_cases h : k' = k
  · subst h; simp
  · rw [if_neg h, Finmap.lookup_insert_of_ne m h]

theorem lookup_erase_if {κ β : Type*} [DecidableEq κ] (m : Finmap (fun _ : κ => β)) (k k' : κ) :
    (m.erase k).lookup k' = if k' = k then none else m.lookup k' := by
  by_cases h : k' = k
  · subst h; simp
  · rw [if_neg h, Finmap.lookup_erase_ne h]

theorem level_insert_if (m : PriceMap) (p q : ℕ) (l : Level) :
    (m.insert p l)[q]? = if q = p then some l else m[q]? := by
  rw [Std.ExtTreeMap.getElem?_insert]
  by_cases h : q = p
  · subst h; simp
  · rw [if_neg h, if_neg (by rw [Nat.compare_eq_eq]; exact fun e => h e.symm)]

theorem level_erase_if (m : PriceMap) (p q : ℕ) : (m.erase p)[q]? = if q = p then none else m[q]? := by
  rw [Std.ExtTreeMap.getElem?_erase]
  by_cases h : q = p
  · subst h; simp
  · rw [if_neg h, if_neg (by rw [Nat.compare_eq_eq]; exact fun e => h e.symm)]

/-- The level at a price as the map holds it: absent exactly when no order rests there. -/
def LevelOK (P : Profile) (level : Option Level) (c : List Slotted) : Prop :=
  match level with
  | none => c = []
  | some l => c ≠ [] ∧ l.head = (c.map Prod.fst).head? ∧ l.tail = (c.map Prod.fst).getLast? ∧
      l.count = c.length ∧ P.u64.val ((c.map (fun e => e.2.qty)).sum : ℕ) = some l.totalQty

structure Rep (P : Profile) (b : Book) (R : Side → List Slotted) : Prop where
  live : ∀ s x o, (x, o) ∈ R s ↔ ∃ n, b.arena.get x = some n ∧ n.side = s ∧ n.order = o
  nodup : ∀ s, ((R s).map Prod.fst).Nodup
  sorted : ∀ s, (R s).Pairwise (fun e f => s.better e.2.price f.2.price)
  pos : ∀ s, ∀ e ∈ R s, 0 < e.2.qty
  level : ∀ s p, LevelOK P (b.map s)[p]? (levelOf (R s) p)
  linked : ∀ s p, Linked b.arena.prev b.arena.next (chainOf (R s) p)
  free : b.arena.FreeOK
  index : ∀ k x, b.orderIndex.lookup k = some x ↔ ∃ n, b.arena.get x = some n ∧ n.key = k
  dense : ∀ a, DenseArray (b.slotsOf a) (b.Owned a) b.acctIdx
  notional : ∀ a e, b.accounts.lookup a = some e →
    P.u128.val (notionalIn (plain (R .buy ++ R .sell)) a : ℕ) = some e.notional

section Lists

variable {l : List Slotted} {x : ℕ} {o : Order} {p : ℕ}

theorem mem_levelOf {e : Slotted} : e ∈ levelOf l p ↔ e ∈ l ∧ e.2.price = p := by
  simp [levelOf]

theorem levelOf_nodup (h : (l.map Prod.fst).Nodup) (p : ℕ) : (chainOf l p).Nodup :=
  h.sublist (List.Sublist.map _ List.filter_sublist)

theorem levelOf_plain (l : List Slotted) (p : ℕ) : plain (levelOf l p) = (plain l).filter (fun o => o.price = p) := by
  simp [plain, levelOf, List.filter_map, Function.comp_def]

theorem levelOf_qty (l : List Slotted) (p : ℕ) : ((levelOf l p).map (fun e => e.2.qty)).sum = qtyAt (plain l) p := by
  unfold qtyAt
  rw [← levelOf_plain]
  simp [plain, Function.comp_def]

end Lists

/-- Both sides together. -/
theorem mem_sides {R : Side → List Slotted} {e : Slotted} : e ∈ R .buy ++ R .sell ↔ ∃ s, e ∈ R s := by
  rw [List.mem_append]
  constructor
  · rintro (he | he)
    · exact ⟨.buy, he⟩
    · exact ⟨.sell, he⟩
  · rintro ⟨s, he⟩
    cases s with
    | buy => exact Or.inl he
    | sell => exact Or.inr he

namespace Rep

variable {P : Profile} {b : Book} {R : Side → List Slotted} {x y : ℕ} {n m : Node} {s : Side} {p : ℕ}
  {o : Order} {k : Key} {a : ℕ}

theorem mem (h : Rep P b R) (hn : b.arena.get x = some n) : (x, n.order) ∈ R n.side :=
  (h.live _ _ _).2 ⟨n, hn, rfl, rfl⟩

/-- Two live nodes under one key are the same. -/
theorem key_inj (h : Rep P b R) (hn : b.arena.get x = some n) (hm : b.arena.get y = some m)
    (he : n.key = m.key) : x = y := by
  have h1 := (h.index n.key x).2 ⟨n, hn, rfl⟩
  have h2 := (h.index n.key y).2 ⟨m, hm, he.symm⟩
  exact Option.some.inj (h1.symm.trans h2)

/-- **A live slot's level, cut at that slot.** -/
theorem split (h : Rep P b R) (hn : b.arena.get x = some n) :
    ∃ pre post, levelOf (R n.side) n.price = pre ++ (x, n.order) :: post ∧
      n.prev = (pre.map Prod.fst).getLast? ∧ n.next = (post.map Prod.fst).head? := by
  have hm : (x, n.order) ∈ levelOf (R n.side) n.price := mem_levelOf.2 ⟨h.mem hn, rfl⟩
  obtain ⟨pre, post, hc⟩ := List.append_of_mem hm
  refine ⟨pre, post, hc, ?_⟩
  have hl := h.linked n.side n.price (pre.map Prod.fst) x (post.map Prod.fst) (by
    unfold chainOf; rw [hc]; simp)
  simpa [Arena.prev, Arena.next, hn] using hl

/-- The slots of a level are live. -/
theorem chain_live (h : Rep P b R) (hx : x ∈ chainOf (R s) p) :
    ∃ n, b.arena.get x = some n ∧ n.side = s ∧ n.price = p := by
  obtain ⟨⟨y, o⟩, he, rfl⟩ := List.mem_map.1 hx
  obtain ⟨hm, hp⟩ := mem_levelOf.1 he
  obtain ⟨n, hn, hs, ho⟩ := (h.live s y o).1 hm
  refine ⟨n, hn, hs, ?_⟩
  rw [← hp, ← ho]
  rfl

/-- The level of a live node is in its map. -/
theorem level_some (h : Rep P b R) (hn : b.arena.get x = some n) :
    ∃ l, (b.map n.side)[n.price]? = some l ∧ LevelOK P (some l) (levelOf (R n.side) n.price) := by
  have hl := h.level n.side n.price
  have hm : (x, n.order) ∈ levelOf (R n.side) n.price := mem_levelOf.2 ⟨h.mem hn, rfl⟩
  cases hg : (b.map n.side)[n.price]? with
  | none =>
    rw [hg] at hl
    simp only [LevelOK] at hl
    rw [hl] at hm
    simp at hm
  | some l => exact ⟨l, rfl, by rw [hg] at hl; exact hl⟩

/-- The entry of a live node's account. -/
theorem entry_some (h : Rep P b R) (hn : b.arena.get x = some n) :
    ∃ e, b.accounts.lookup n.account = some e ∧ b.slotsOf n.account = e.slots ∧
      e.slots[n.acctIdx]? = some x := by
  have hd := (h.dense n.account).getElem? (x := x) ⟨n, hn, rfl⟩
  have hi : b.acctIdx x = n.acctIdx := by simp [Book.acctIdx, hn]
  rw [hi] at hd
  cases he : b.accounts.lookup n.account with
  | none => simp [Book.slotsOf, he] at hd
  | some e =>
    have hs : b.slotsOf n.account = e.slots := by simp [Book.slotsOf, he]
    exact ⟨e, rfl, hs, by rw [← hs]; exact hd⟩

theorem slot_lt (h : Rep P b R) {e : Slotted} (he : e ∈ R s) : e.1 < b.arena.slots.length := by
  obtain ⟨n, hn, -⟩ := (h.live s e.1 e.2).1 he
  exact Arena.get_lt hn

/-- A level holds at most as many orders as the arena has slots. -/
theorem length_le (h : Rep P b R) (s : Side) : (R s).length ≤ b.arena.slots.length := by
  have h1 : ((R s).map Prod.fst).toFinset ⊆ Finset.range b.arena.slots.length := by
    intro x hx
    rw [List.mem_toFinset, List.mem_map] at hx
    obtain ⟨e, he, rfl⟩ := hx
    exact Finset.mem_range.2 (h.slot_lt he)
  have h2 := Finset.card_le_card h1
  rw [List.toFinset_card_of_nodup (h.nodup s)] at h2
  simpa using h2

/-- A level is no longer than the turns a walk over it is given. -/
theorem levelOf_length_le (h : Rep P b R) (s : Side) (p : ℕ) :
    (levelOf (R s) p).length ≤ b.arena.slots.length + 1 := by
  have hfilter := List.length_filter_le (fun e : Slotted => decide (e.2.price = p)) (R s)
  have hside := h.length_le s
  unfold levelOf
  omega

/-- A price is occupied exactly when an order rests there. -/
theorem mem_map_iff (h : Rep P b R) : p ∈ b.map s ↔ ∃ e ∈ R s, e.2.price = p := by
  rw [← Std.ExtTreeMap.isSome_getElem?_iff_mem]
  have hl := h.level s p
  constructor
  · intro hs
    obtain ⟨l, hg⟩ := Option.isSome_iff_exists.1 hs
    rw [hg] at hl
    obtain ⟨e, he⟩ := List.exists_mem_of_ne_nil _ hl.1
    exact ⟨e, (mem_levelOf.1 he).1, (mem_levelOf.1 he).2⟩
  · rintro ⟨e, he, hp⟩
    cases hg : (b.map s)[p]? with
    | none =>
      rw [hg] at hl
      simp only [LevelOK] at hl
      have : e ∈ levelOf (R s) p := mem_levelOf.2 ⟨he, hp⟩
      rw [hl] at this
      simp at this
    | some l => rfl

end Rep

end MatchingEngine
