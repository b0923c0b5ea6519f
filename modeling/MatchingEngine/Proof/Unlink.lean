import MatchingEngine.Proof.Rep

/-!
# `unlink` keeps the representation

`unlink_ok`: unlinking a live slot never panics, and the book then represents the
same lists without that slot. The argument is one view of the final arena
(`relinked`): every other node keeps its order, the two neighbours in the chain are
joined, and the node moved by the swap-removal records its new position.
-/

namespace MatchingEngine

/-- The labelled lists without a slot. -/
def without (R : Side → List Slotted) (x : ℕ) (s : Side) : List Slotted := (R s).filter (fun e => e.1 ≠ x)

theorem mem_without {R : Side → List Slotted} {x : ℕ} {s : Side} {e : Slotted} :
    e ∈ without R x s ↔ e ∈ R s ∧ e.1 ≠ x := by
  simp [without]

theorem levelOf_without (R : Side → List Slotted) (x : ℕ) (s : Side) (p : ℕ) :
    levelOf (without R x s) p = (levelOf (R s) p).filter (fun e => e.1 ≠ x) := by
  unfold levelOf without
  rw [List.filter_comm]

/-- What unlinking `n` does to the node in slot `y`. -/
def relinked (n : Node) (moved : Option ℕ) (y : ℕ) (m : Node) : Node :=
  { m with
    next := if n.prev = some y then n.next else m.next
    prev := if n.next = some y then n.prev else m.prev
    acctIdx := if moved = some y then n.acctIdx else m.acctIdx }

section

variable {P : Profile} {b : Book} {R : Side → List Slotted} {x : ℕ} {n : Node}

/-- The arena steps of `unlink`, from the first link to the freed slot. -/
theorem unlink_arena (h : Rep P b R) (hn : b.arena.get x = some n) {moved : Option ℕ}
    (hm : ∀ y, moved = some y → ∃ m, b.arena.get y = some m) :
    ∃ a₁ a₂ a₃ a₄ : Arena,
      b.arena.updateLink n.prev "prev must be live" (fun m => { m with next := n.next }) = .ok a₁ ∧
      a₁.updateLink n.next "next must be live" (fun m => { m with prev := n.prev }) = .ok a₂ ∧
      a₂.updateLink moved "moved slot must be live" (fun m => { m with acctIdx := n.acctIdx }) = .ok a₃ ∧
      a₃.freeSlot P x = .ok a₄ ∧ a₄.FreeOK ∧ a₄.slots.length = b.arena.slots.length ∧
      ∀ y, a₄.get y = if y = x then none else (b.arena.get y).map (relinked n moved y) := by
  obtain ⟨pre, post, hc, hprev, hnext⟩ := h.split hn
  have hlive : ∀ y ∈ chainOf (R n.side) n.price, ∃ m, b.arena.get y = some m := fun y hy =>
    let ⟨m, hm, _⟩ := h.chain_live hy; ⟨m, hm⟩
  have hp : ∀ y, n.prev = some y → ∃ m, b.arena.get y = some m := by
    intro y hy
    apply hlive
    unfold chainOf
    rw [hc, List.map_append]
    exact List.mem_append_left _ (List.mem_of_getLast? (hprev ▸ hy))
  have hq : ∀ y, n.next = some y → ∃ m, b.arena.get y = some m := by
    intro y hy
    apply hlive
    unfold chainOf
    rw [hc, List.map_append]
    exact List.mem_append_right _ (List.mem_cons_of_mem _ (List.mem_of_head? (hnext ▸ hy)))
  -- three link updates and a free slot, each on what the one before left
  obtain ⟨a₁, e₁, f₁, l₁, g₁⟩ := Arena.updateLink_ok hp "prev must be live" (fun m => { m with next := n.next })
  have live₁ : ∀ y, (∃ m, b.arena.get y = some m) → ∃ m, a₁.get y = some m := by
    rintro y ⟨m, hm⟩
    rw [g₁, hm]
    split <;> simp
  obtain ⟨a₂, e₂, f₂, l₂, g₂⟩ := Arena.updateLink_ok (fun y hy => live₁ y (hq y hy)) "next must be live"
    (fun m => { m with prev := n.prev })
  have live₂ : ∀ y, (∃ m, b.arena.get y = some m) → ∃ m, a₂.get y = some m := by
    intro y hy
    obtain ⟨m, hm⟩ := live₁ y hy
    rw [g₂, hm]
    split <;> simp
  obtain ⟨a₃, e₃, f₃, l₃, g₃⟩ := Arena.updateLink_ok (fun y hy => live₂ y (hm y hy)) "moved slot must be live"
    (fun m => { m with acctIdx := n.acctIdx })
  have hview : ∀ y, a₃.get y = (b.arena.get y).map (relinked n moved y) := by
    intro y
    rw [g₃, g₂, g₁]
    cases b.arena.get y with
    | none => simp
    | some m =>
      by_cases h1 : n.prev = some y <;> by_cases h2 : n.next = some y <;> by_cases h3 : moved = some y <;>
        simp [relinked, h1, h2, h3]
  have hfree : a₃.FreeOK := h.free.congr (f₃.trans (f₂.trans f₁)) (l₃.trans (l₂.trans l₁))
    (fun y => by rw [hview]; simp)
  have hx : a₃.get x = some (relinked n moved x n) := by rw [hview, hn]; rfl
  obtain ⟨a₄, e₄, f₄, l₄, g₄⟩ := Arena.freeSlot_ok P hfree hx
  exact ⟨a₁, a₂, a₃, a₄, e₁, e₂, e₃, e₄, f₄, l₄.trans (l₃.trans (l₂.trans l₁)), fun y => by rw [g₄, hview]⟩

/-- A level without one of its orders: gone when that was the last one. -/
theorem levelOK_remove {l : Level} {o : Order} {pre post : List Slotted} {t : ℕ}
    (hnd : ((pre ++ (x, o) :: post).map Prod.fst).Nodup) (h : LevelOK P (some l) (pre ++ (x, o) :: post))
    (ht : P.u64.val ((l.totalQty : ℤ) - o.qty) = some t) {l' : Level}
    (hl' : l' = { head := if l.head = some x then (post.map Prod.fst).head? else l.head
                  tail := if l.tail = some x then (pre.map Prod.fst).getLast? else l.tail
                  totalQty := t, count := l.count - 1 }) :
    LevelOK P (if l'.isEmpty then none else some l') (pre ++ post) := by
  obtain ⟨-, hhead, htail, hcount, hsum⟩ := h
  rw [List.map_append, List.map_cons] at hnd hhead htail
  have hx : x ∉ pre.map Prod.fst ∧ x ∉ post.map Prod.fst := by
    rw [List.nodup_middle, List.nodup_cons, List.mem_append, not_or] at hnd
    exact hnd.1
  have hc' : l'.count = (pre ++ post).length := by
    rw [hl']; simp only [hcount, List.length_append, List.length_cons]; omega
  -- the last order of a level takes the level with it
  by_cases hnil : pre ++ post = []
  · have : l'.isEmpty = true := by simp [Level.isEmpty, hc', hnil]
    rw [this]
    exact hnil
  · have hne : l'.isEmpty = false := by
      have : (pre ++ post).length ≠ 0 := fun e => hnil (List.length_eq_zero_iff.1 e)
      simp only [Level.isEmpty, hc', beq_eq_false_iff_ne]
      exact this
    rw [hne]
    refine ⟨hnil, ?_, ?_, hc', ?_⟩
    · have hlh : l'.head = if l.head = some x then (post.map Prod.fst).head? else l.head := by rw [hl']
      rw [hlh, List.map_append]
      cases pre with
      | nil => simp only [List.map_nil, List.nil_append, List.head?_cons] at hhead ⊢; rw [hhead, if_pos rfl]
      | cons f pre =>
        have hf : f.1 ≠ x := by
          have := hx.1
          simp only [List.map_cons, List.mem_cons, not_or] at this
          exact fun e => this.1 e.symm
        simp only [List.map_cons, List.cons_append, List.head?_cons] at hhead ⊢
        rw [hhead, if_neg (by simpa using hf)]
    · have hlt : l'.tail = if l.tail = some x then (pre.map Prod.fst).getLast? else l.tail := by rw [hl']
      rw [hlt, List.map_append]
      rcases List.eq_nil_or_concat post with rfl | ⟨post', f, rfl⟩
      · simp only [List.map_nil, List.getLast?_append, List.getLast?_singleton, Option.some_or,
          List.append_nil] at htail ⊢
        rw [htail, if_pos rfl]
      · have hf : f.1 ≠ x := by
          have := hx.2
          simp only [List.concat_eq_append, List.map_append, List.map_cons, List.mem_append, List.mem_cons,
            not_or] at this
          exact fun e => this.2.1 e.symm
        have hlast : ∀ q : List ℕ, (q ++ (post'.concat f).map Prod.fst).getLast? = some f.1 := by
          intro q; simp
        rw [← List.singleton_append, ← List.append_assoc, hlast] at htail
        rw [hlast, htail, if_neg (by simpa using hf)]
    · rw [hl']
      simp only [List.map_append, List.map_cons, List.sum_append, List.sum_cons] at hsum ⊢
      rw [Word.sub (by omega) hsum] at ht
      rw [← ht]
      congr 2
      omega

/-- Removing an order takes its notional from its own account and no other. -/
theorem notional_without (h : Rep P b R) (hn : b.arena.get x = some n) (a : ℕ) :
    notionalIn (plain (R .buy ++ R .sell)) a =
      (if n.account = a then n.price * n.qty else 0) +
        notionalIn (plain (without R x .buy ++ without R x .sell)) a := by
  have hm := h.mem hn
  have hperm := perm_cons_filter (f := Prod.fst) (h.nodup n.side) hm
  have hother : ∀ s, s ≠ n.side → without R x s = R s := by
    intro s hs
    unfold without
    rw [List.filter_eq_self]
    intro e he
    simp only [ne_eq, decide_not, Bool.not_eq_eq_eq_not, Bool.not_true, decide_eq_false_iff_not]
    intro hx
    obtain ⟨m, hm', hms, -⟩ := (h.live s e.1 e.2).1 he
    rw [hx, hn] at hm'
    exact hs (hms ▸ (Option.some.inj hm') ▸ rfl)
  have hside : notionalIn (plain (R n.side)) a =
      (if n.account = a then n.price * n.qty else 0) + notionalIn (plain (without R x n.side)) a := by
    have hp : (plain (R n.side)).Perm (n.order :: plain (without R x n.side)) := hperm.map Prod.snd
    rw [notionalIn_perm hp, notionalIn_cons]
    rfl
  unfold plain at hside ⊢
  rw [List.map_append, List.map_append, notionalIn_append, notionalIn_append]
  cases hs : n.side with
  | buy => rw [hs] at hside; rw [hside, hother .sell (by rw [hs]; decide)]; omega
  | sell => rw [hs] at hside; rw [hside, hother .buy (by rw [hs]; decide)]; omega

/-- Slots of other levels are not next to the unlinked one. -/
theorem not_neighbour (h : Rep P b R) (hn : b.arena.get x = some n) {s : Side} {p y : ℕ}
    (hy : y ∈ chainOf (R s) p) (hne : ¬ (s = n.side ∧ p = n.price)) : n.prev ≠ some y ∧ n.next ≠ some y := by
  obtain ⟨pre, post, hc, hprev, hnext⟩ := h.split hn
  obtain ⟨m, hm, hms, hmp⟩ := h.chain_live hy
  have key : y ∉ chainOf (R n.side) n.price := by
    intro hy'
    obtain ⟨m', hm', hms', hmp'⟩ := h.chain_live hy'
    obtain rfl : m = m' := Option.some.inj (hm.symm.trans hm')
    exact hne ⟨hms ▸ hms', hmp ▸ hmp'⟩
  unfold chainOf at key
  rw [hc, List.map_append, List.map_cons, List.mem_append, List.mem_cons, not_or, not_or] at key
  constructor
  · intro he; exact key.1 (List.mem_of_getLast? (hprev ▸ he))
  · intro he; exact key.2.2 (List.mem_of_head? (hnext ▸ he))

/-- The book after unlinking `n` from slot `x`, field by field. -/
structure UnlinkView (b b' : Book) (x : ℕ) (n : Node) (e : AccountEntry) (v : ℕ) (level : Option Level) :
    Prop where
  get : ∀ y, b'.arena.get y = if y = x then none
    else (b.arena.get y).map (relinked n (swapRemove e.slots n.acctIdx)[n.acctIdx]? y)
  free : b'.arena.FreeOK
  length : b'.arena.slots.length = b.arena.slots.length
  index : b'.orderIndex = b.orderIndex.erase n.key
  accounts : ∀ a, b'.accounts.lookup a = if a = n.account
    then some { slots := swapRemove e.slots n.acctIdx, notional := v } else b.accounts.lookup a
  map : ∀ s p, (b'.map s)[p]? = if s = n.side ∧ p = n.price then level else (b.map s)[p]?
  lastTrade : b'.lastTrade = b.lastTrade

/-- `unlink` runs to its end on a live slot, and what it leaves. -/
theorem unlink_view (h : Rep P b R) (hn : b.arena.get x = some n) :
    ∃ b' e v level, b.unlink P x = .ok b' ∧ UnlinkView b b' x n e v level ∧
      b.slotsOf n.account = e.slots ∧
      P.u128.val (notionalIn (plain (without R x .buy ++ without R x .sell)) n.account : ℕ) = some v ∧
      LevelOK P level (levelOf (without R x n.side) n.price) := by
  obtain ⟨pre, post, hc, hprev, hnext⟩ := h.split hn
  obtain ⟨l, hl, hlOK⟩ := h.level_some hn
  obtain ⟨e, he, hes, hei⟩ := h.entry_some hn
  -- the stored sums
  have hnot := notional_without h hn n.account
  rw [if_pos rfl] at hnot
  have hv := h.notional n.account e he
  obtain ⟨v, hv'⟩ := Word.down_nat (n := notionalIn (plain (without R x .buy ++ without R x .sell)) n.account)
    (by omega) hv
  have hv'' : P.u128.val ((e.notional : ℤ) - (n.price * n.qty : ℕ)) = some v := by
    rw [Word.sub (by omega) hv, ← hv']
    congr 2
    omega
  rw [hc] at hlOK
  have hsum := hlOK.2.2.2.2
  have hle : n.qty ≤ ((pre ++ (x, n.order) :: post).map (fun e => e.2.qty)).sum := by
    simp only [List.map_append, List.map_cons, List.sum_append, List.sum_cons, Node.order]; omega
  obtain ⟨t, ht⟩ := Word.down_nat (Nat.sub_le _ n.qty) hsum
  rw [← Word.sub hle hsum] at ht
  -- the node moved by the swap-removal is live
  have hlt : n.acctIdx < e.slots.length := (List.getElem?_eq_some_iff.1 hei).1
  have hmoved : ∀ y, (swapRemove e.slots n.acctIdx)[n.acctIdx]? = some y → ∃ m, b.arena.get y = some m := by
    intro y hy
    rw [getElem?_swapRemove hlt, if_pos rfl] at hy
    split at hy
    · have hy' : y ∈ b.slotsOf n.account := by rw [hes]; exact List.mem_of_getElem? hy
      obtain ⟨m, hm, -⟩ := (h.dense n.account).mem_iff.1 hy'
      exact ⟨m, hm⟩
    · simp at hy
  obtain ⟨a₁, a₂, a₃, a₄, e₁, e₂, e₃, e₄, hfree, hlen, hget⟩ := unlink_arena h hn hmoved
  set l' : Level := { head := if l.head = some x then n.next else l.head
                      tail := if l.tail = some x then n.prev else l.tail
                      totalQty := t, count := l.count - 1 } with hl'
  set b' : Book := { b with
    arena := a₄
    accounts := b.accounts.insert n.account { slots := swapRemove e.slots n.acctIdx, notional := v }
    orderIndex := b.orderIndex.erase (n.account, n.id) }.setMap n.side
      (if l'.isEmpty then (b.map n.side).erase n.price else (b.map n.side).insert n.price l') with hb'
  refine ⟨b', e, v, if l'.isEmpty then none else some l', ?_, ?_, hes, hv', ?_⟩
  · have hrem : index e.slots n.acctIdx = .ok x := by simp [MatchingEngine.index, hei]
    simp only [Book.unlink, hn, expect_some, bind, Except.bind, e₁, e₂, hl, Profile.store64_ok ht, he, hrem,
      Profile.debugAssert_ok (fun _ => trivial), Profile.store128_ok hv'', e₃, e₄, pure, Except.pure]
    rfl
  · have harena : b'.arena = a₄ := by simp [hb']
    refine ⟨by rw [harena]; exact hget, by rw [harena]; exact hfree, by rw [harena, hlen], by simp [hb', Node.key],
      ?_, ?_, by simp [hb']⟩
    · intro a; simp only [hb', Book.setMap_accounts]; exact lookup_insert_if _ _ _ _
    · intro s p
      rw [hb', Book.setMap_map]
      by_cases hs : s = n.side
      · subst hs
        by_cases hp : p = n.price <;> cases hE : l'.isEmpty <;> simp [hp, level_insert_if, level_erase_if]
      · rw [if_neg hs, if_neg (fun hh => hs hh.1)]; cases s <;> rfl
  · have hnd : ((pre ++ (x, n.order) :: post).map Prod.fst).Nodup := by
      rw [← hc]; exact levelOf_nodup (h.nodup n.side) n.price
    rw [levelOf_without, hc, filter_key_split (a := (x, n.order)) hnd]
    exact levelOK_remove hnd hlOK ht (by rw [hl', hprev, hnext])

/-! ### What the view says of the new book -/

namespace UnlinkView

variable {b' : Book} {e : AccountEntry} {v : ℕ} {level : Option Level} (hv : UnlinkView b b' x n e v level)
include hv

/-- **The other slots keep their orders.** -/
theorem exists_iff (φ : Node → Prop)
    (hφ : ∀ y m, φ (relinked n (swapRemove e.slots n.acctIdx)[n.acctIdx]? y m) ↔ φ m) (y : ℕ) :
    (∃ m', b'.arena.get y = some m' ∧ φ m') ↔ (∃ m, b.arena.get y = some m ∧ φ m) ∧ y ≠ x := by
  rw [hv.get]
  constructor
  · rintro ⟨m', hm', h'⟩
    split at hm'
    · simp at hm'
    · rename_i hy
      obtain ⟨m, hm, rfl⟩ := Option.map_eq_some_iff.1 hm'
      exact ⟨⟨m, hm, (hφ y m).1 h'⟩, hy⟩
  · rintro ⟨⟨m, hm, h'⟩, hy⟩
    rw [if_neg hy, hm]
    exact ⟨_, rfl, (hφ y m).2 h'⟩

theorem slotsOf (hes : b.slotsOf n.account = e.slots) (a : ℕ) :
    b'.slotsOf a = if a = n.account then swapRemove (b.slotsOf a) n.acctIdx else b.slotsOf a := by
  unfold Book.slotsOf
  rw [hv.accounts]
  by_cases ha : a = n.account
  · subst ha
    have : ((b.accounts.lookup n.account).map AccountEntry.slots).getD [] = e.slots := hes
    simp [this]
  · simp [ha]

theorem prev_eq {y : ℕ} (hy : y ≠ x) :
    b'.arena.prev y = if n.next = some y ∧ (b.arena.get y).isSome then n.prev else b.arena.prev y := by
  unfold Arena.prev
  rw [hv.get, if_neg hy]
  cases b.arena.get y with
  | none => simp
  | some m => by_cases hny : n.next = some y <;> simp [relinked, hny]

theorem next_eq {y : ℕ} (hy : y ≠ x) :
    b'.arena.next y = if n.prev = some y ∧ (b.arena.get y).isSome then n.next else b.arena.next y := by
  unfold Arena.next
  rw [hv.get, if_neg hy]
  cases b.arena.get y with
  | none => simp
  | some m => by_cases hny : n.prev = some y <;> simp [relinked, hny]

theorem acctIdx_eq {y : ℕ} {m : Node} (hm : b.arena.get y = some m) (hy : y ≠ x) :
    b'.acctIdx y = if (swapRemove e.slots n.acctIdx)[n.acctIdx]? = some y then n.acctIdx else b.acctIdx y := by
  unfold Book.acctIdx
  rw [hv.get, if_neg hy, hm]
  simp [relinked]

variable (h : Rep P b R) (hn : b.arena.get x = some n)
include h

theorem live (s : Side) (y : ℕ) (o : Order) :
    (y, o) ∈ without R x s ↔ ∃ m, b'.arena.get y = some m ∧ m.side = s ∧ m.order = o := by
  rw [mem_without, h.live, hv.exists_iff (fun m => m.side = s ∧ m.order = o) (fun _ _ => Iff.rfl)]

include hn

omit hv in
/-- The unlinked slot is on its own level only. -/
theorem ne_of_chain {s : Side} {p y : ℕ} (hne : ¬ (s = n.side ∧ p = n.price)) (hy : y ∈ chainOf (R s) p) : y ≠ x := by
  rintro rfl
  obtain ⟨m, hm, hms, hmp⟩ := h.chain_live hy
  obtain rfl : n = m := Option.some.inj (hn.symm.trans hm)
  exact hne ⟨hms.symm, hmp.symm⟩

omit hv in
theorem levelOf_other {s : Side} {p : ℕ} (hne : ¬ (s = n.side ∧ p = n.price)) :
    levelOf (without R x s) p = levelOf (R s) p := by
  rw [levelOf_without, List.filter_eq_self]
  intro f hf
  simp only [ne_eq, decide_not, Bool.not_eq_eq_eq_not, Bool.not_true, decide_eq_false_iff_not]
  exact ne_of_chain h hn hne (List.mem_map_of_mem hf)

theorem level_ok (hlev : LevelOK P level (levelOf (without R x n.side) n.price)) (s : Side) (p : ℕ) :
    LevelOK P (b'.map s)[p]? (levelOf (without R x s) p) := by
  rw [hv.map]
  by_cases hsp : s = n.side ∧ p = n.price
  · rw [if_pos hsp, hsp.1, hsp.2]
    exact hlev
  · rw [if_neg hsp, levelOf_other h hn hsp]
    exact h.level s p

/-- The slot's own level closes the gap. -/
theorem linked_self : Linked b'.arena.prev b'.arena.next (chainOf (without R x n.side) n.price) := by
  obtain ⟨pre, post, hc, hp, hq⟩ := h.split hn
  have hnd : ((pre ++ (x, n.order) :: post).map Prod.fst).Nodup := by
    rw [← hc]
    exact levelOf_nodup (h.nodup n.side) n.price
  have hlink := h.linked n.side n.price
  unfold chainOf at hlink ⊢
  rw [levelOf_without, hc, filter_key_split (a := (x, n.order)) hnd, List.map_append]
  rw [hc, List.map_append, List.map_cons] at hlink
  rw [List.map_append, List.map_cons] at hnd
  have hx : ∀ y ∈ pre.map Prod.fst ++ post.map Prod.fst, y ≠ x := by
    rw [List.nodup_middle, List.nodup_cons] at hnd
    exact fun y hy he => hnd.1 (he ▸ hy)
  have hlive : ∀ y ∈ pre.map Prod.fst ++ post.map Prod.fst, (b.arena.get y).isSome := by
    intro y hy
    have hyc : y ∈ chainOf (R n.side) n.price := by
      unfold chainOf
      rw [hc, List.map_append, List.map_cons]
      rcases List.mem_append.1 hy with hy | hy
      · exact List.mem_append_left _ hy
      · exact List.mem_append_right _ (List.mem_cons_of_mem _ hy)
    obtain ⟨m, hm, -⟩ := h.chain_live hyc
    simp [hm]
  have hpx : b.arena.prev x = n.prev := by simp [Arena.prev, hn]
  have hnx : b.arena.next x = n.next := by simp [Arena.next, hn]
  apply hlink.remove hnd
  · intro y hy
    rw [hv.prev_eq (hx y hy), hpx, hnx]
    simp [hlive y hy]
  · intro y hy
    rw [hv.next_eq (hx y hy), hpx, hnx]
    simp [hlive y hy]

theorem linked (s : Side) (p : ℕ) : Linked b'.arena.prev b'.arena.next (chainOf (without R x s) p) := by
  by_cases hsp : s = n.side ∧ p = n.price
  · rw [hsp.1, hsp.2]
    exact hv.linked_self h hn
  · unfold chainOf
    rw [levelOf_other h hn hsp]
    apply (h.linked s p).congr
    · intro y hy
      rw [hv.prev_eq (ne_of_chain h hn hsp hy), if_neg (fun hh => (not_neighbour h hn hy hsp).2 hh.1)]
    · intro y hy
      rw [hv.next_eq (ne_of_chain h hn hsp hy), if_neg (fun hh => (not_neighbour h hn hy hsp).1 hh.1)]

theorem index_ok (k : Key) (y : ℕ) :
    b'.orderIndex.lookup k = some y ↔ ∃ m, b'.arena.get y = some m ∧ m.key = k := by
  rw [hv.exists_iff (fun m => m.key = k) (fun _ _ => Iff.rfl), ← h.index, hv.index, lookup_erase_if]
  by_cases hk : k = n.key
  · -- the slot itself was the only one under its key
    rw [if_pos hk, (h.index k x).2 ⟨n, hn, hk.symm⟩]
    simp [eq_comm]
  · rw [if_neg hk]
    refine ⟨fun hl => ⟨hl, ?_⟩, fun hl => hl.1⟩
    rintro rfl
    obtain ⟨m, hm, hmk⟩ := (h.index k y).1 hl
    obtain rfl : n = m := Option.some.inj (hn.symm.trans hm)
    exact hk hmk.symm

theorem dense (hes : b.slotsOf n.account = e.slots) (a : ℕ) : DenseArray (b'.slotsOf a) (b'.Owned a) b'.acctIdx := by
  have hown : ∀ y, b'.Owned a y ↔ b.Owned a y ∧ y ≠ x := hv.exists_iff (fun m => m.account = a) (fun _ _ => Iff.rfl)
  have hi : b.acctIdx x = n.acctIdx := by simp [Book.acctIdx, hn]
  rw [hv.slotsOf hes]
  by_cases ha : a = n.account
  · subst ha
    rw [if_pos rfl, ← hi]
    apply (h.dense n.account).remove ⟨n, hn, rfl⟩ hown
    rintro y ⟨m, hm, -⟩ hy
    rw [hv.acctIdx_eq hm hy, hi, hes]
    exact ⟨fun hh => by rw [if_pos hh], fun hh => by rw [if_neg hh]⟩
  · rw [if_neg ha]
    have hnx : ∀ y, b.Owned a y → y ≠ x := by
      rintro y ⟨m, hm, hma⟩ rfl
      obtain rfl : n = m := Option.some.inj (hn.symm.trans hm)
      exact ha hma.symm
    apply (h.dense a).congr
    · intro y
      rw [hown y]
      exact ⟨fun hh => hh.1, fun hh => ⟨hh, hnx y hh⟩⟩
    · rintro y ⟨m, hm, hma⟩
      rw [hv.acctIdx_eq hm (hnx y ⟨m, hm, hma⟩), if_neg]
      intro hh
      -- the moved node belongs to the unlinked node's account
      have hy' : y ∈ b.slotsOf n.account := by
        rw [hes]
        have hlt : n.acctIdx < e.slots.length := by
          have := (h.dense n.account).lt (x := x) ⟨n, hn, rfl⟩
          rwa [hes, hi] at this
        rw [getElem?_swapRemove hlt, if_pos rfl] at hh
        split at hh
        · exact List.mem_of_getElem? hh
        · simp at hh
      obtain ⟨m', hm', hma'⟩ := (h.dense n.account).mem_iff.1 hy'
      obtain rfl : m = m' := Option.some.inj (hm.symm.trans hm')
      exact ha (hma.symm.trans hma')

theorem notional_ok
    (hnot : P.u128.val (notionalIn (plain (without R x .buy ++ without R x .sell)) n.account : ℕ) = some v) (a : ℕ)
    (f : AccountEntry) (hf : b'.accounts.lookup a = some f) :
    P.u128.val (notionalIn (plain (without R x .buy ++ without R x .sell)) a : ℕ) = some f.notional := by
  rw [hv.accounts] at hf
  by_cases ha : a = n.account
  · subst ha
    rw [if_pos rfl, Option.some.injEq] at hf
    rw [hnot, ← hf]
  · rw [if_neg ha] at hf
    have hna := notional_without h hn a
    rw [if_neg (fun hh => ha hh.symm), Nat.zero_add] at hna
    rw [← hna]
    exact h.notional a f hf

/-- The view of an unlinked book represents the lists without that slot. -/
theorem rep (hes : b.slotsOf n.account = e.slots)
    (hnot : P.u128.val (notionalIn (plain (without R x .buy ++ without R x .sell)) n.account : ℕ) = some v)
    (hlev : LevelOK P level (levelOf (without R x n.side) n.price)) : Rep P b' (without R x) where
  live := hv.live h
  nodup s := (h.nodup s).sublist (List.Sublist.map _ List.filter_sublist)
  sorted s := (h.sorted s).sublist List.filter_sublist
  pos s f hf := h.pos s f (mem_without.1 hf).1
  level := hv.level_ok h hn hlev
  linked := hv.linked h hn
  free := hv.free
  index := hv.index_ok h hn
  dense := hv.dense h hn hes
  notional := hv.notional_ok h hn hnot

end UnlinkView

/-- **`unlink` keeps the representation.** It never panics on a live slot. -/
theorem unlink_ok (h : Rep P b R) (hn : b.arena.get x = some n) :
    ∃ b', b.unlink P x = .ok b' ∧ Rep P b' (without R x) ∧ b'.lastTrade = b.lastTrade ∧
      b'.arena.slots.length = b.arena.slots.length ∧
      ∀ a, b'.slotsOf a = if a = n.account then swapRemove (b.slotsOf a) n.acctIdx else b.slotsOf a := by
  obtain ⟨b', e, v, level, hb', hview, hes, hnot, hlev⟩ := unlink_view h hn
  exact ⟨b', hb', hview.rep h hn hes hnot hlev, hview.lastTrade, hview.length, hview.slotsOf hes⟩

end

end MatchingEngine
