import MatchingEngine.Proof.Rep

/-!
# Quantity changes keep the representation

The two paths that change a resting quantity in place: a partial fill
(`reduce_ok`) and an amend that keeps its priority (`amend_ok`). Both only lower it,
so the sums they store can always be stored, and both leave links, index and account
arrays alone (`QtyView.rep`).
-/

namespace MatchingEngine

/-- The labelled lists with one slot's quantity replaced. -/
def requantified (R : Side → List Slotted) (x q : ℕ) (s : Side) : List Slotted :=
  (R s).map (fun e => if e.1 = x then (e.1, { e.2 with qty := q }) else e)

section

variable {P : Profile} {b : Book} {R : Side → List Slotted} {x q : ℕ} {n : Node}

theorem requantified_fst (R : Side → List Slotted) (x q : ℕ) (s : Side) :
    (requantified R x q s).map Prod.fst = (R s).map Prod.fst :=
  map_key_congr (fun e => by split <;> rfl)

theorem levelOf_requantified (R : Side → List Slotted) (x q : ℕ) (s : Side) (p : ℕ) :
    levelOf (requantified R x q s) p =
      (levelOf (R s) p).map (fun e => if e.1 = x then (e.1, { e.2 with qty := q }) else e) := by
  unfold levelOf requantified
  rw [List.filter_map]
  congr 1
  apply List.filter_congr
  intro e _
  by_cases he : e.1 = x <;> simp [he]

theorem chainOf_requantified (R : Side → List Slotted) (x q : ℕ) (s : Side) (p : ℕ) :
    chainOf (requantified R x q s) p = chainOf (R s) p := by
  unfold chainOf
  rw [levelOf_requantified]
  exact map_key_congr (fun e => by split <;> rfl)

/-- Lists the slot is not in do not change. -/
theorem map_requantify_of_notMem {l : List Slotted} (h : x ∉ l.map Prod.fst) (q : ℕ) :
    l.map (fun e => if e.1 = x then (e.1, { e.2 with qty := q }) else e) = l := by
  refine (List.map_congr_left fun e he => ?_).trans (List.map_id l)
  have hne : e.1 ≠ x := fun hx => h (hx ▸ List.mem_map_of_mem he)
  rw [if_neg hne, id]

/-- A live slot is on its own side only. -/
theorem Rep.notMem_other (h : Rep P b R) (hn : b.arena.get x = some n) {s : Side} (hs : s ≠ n.side) :
    x ∉ (R s).map Prod.fst := by
  intro hx
  obtain ⟨⟨y, o⟩, hy, rfl⟩ := List.mem_map.1 hx
  obtain ⟨m, hm, hms, -⟩ := (h.live s y o).1 hy
  obtain rfl : n = m := Option.some.inj (hn.symm.trans hm)
  exact hs hms.symm

/-- The slot's own list, cut at that slot, before and after. -/
theorem requantified_split (h : Rep P b R) (hn : b.arena.get x = some n) (q : ℕ) :
    ∃ pre post, R n.side = pre ++ (x, n.order) :: post ∧
      requantified R x q n.side = pre ++ (x, { n.order with qty := q }) :: post := by
  obtain ⟨pre, post, hc⟩ := List.append_of_mem (h.mem hn)
  refine ⟨pre, post, hc, ?_⟩
  have hnd := h.nodup n.side
  unfold requantified
  rw [hc] at hnd ⊢
  exact map_key_split (f := Prod.fst) (a := (x, n.order)) (g := fun e => (e.1, { e.2 with qty := q })) hnd

/-- The level's quantity after the change. -/
theorem qty_requantified (h : Rep P b R) (hn : b.arena.get x = some n) (q : ℕ) :
    qtyAt (plain (requantified R x q n.side)) n.price + n.qty = qtyAt (plain (R n.side)) n.price + q := by
  obtain ⟨pre, post, hc, hc'⟩ := requantified_split h hn q
  rw [hc, hc']
  simp only [plain, List.map_append, List.map_cons, qtyAt_append, qtyAt_cons, Node.order, if_true]
  omega

/-- The notionals after the change. -/
theorem notional_requantified (h : Rep P b R) (hn : b.arena.get x = some n) (q a : ℕ) :
    notionalIn (plain (requantified R x q .buy ++ requantified R x q .sell)) a +
        (if n.account = a then n.price * n.qty else 0) =
      notionalIn (plain (R .buy ++ R .sell)) a + (if n.account = a then n.price * q else 0) := by
  obtain ⟨pre, post, hc, hc'⟩ := requantified_split h hn q
  have hother : ∀ s, s ≠ n.side → requantified R x q s = R s := fun s hs =>
    map_requantify_of_notMem (h.notMem_other hn hs) q
  have hside : notionalIn (plain (requantified R x q n.side)) a + (if n.account = a then n.price * n.qty else 0) =
      notionalIn (plain (R n.side)) a + (if n.account = a then n.price * q else 0) := by
    rw [hc, hc']
    simp only [plain, List.map_append, List.map_cons, notionalIn_append, notionalIn_cons, Node.order]
    omega
  unfold plain at hside ⊢
  rw [List.map_append, List.map_append, notionalIn_append, notionalIn_append]
  cases hs : n.side with
  | buy => rw [hs] at hside; rw [hother .sell (by rw [hs]; decide)]; omega
  | sell => rw [hs] at hside; rw [hother .buy (by rw [hs]; decide)]; omega

/-- The book after the quantity in slot `x` became `q`, field by field. -/
structure QtyView (b b' : Book) (x q : ℕ) (n : Node) (e : AccountEntry) (v : ℕ) (l : Level) (t : ℕ) : Prop where
  get : ∀ y, b'.arena.get y = if x = y then some { n with qty := q } else b.arena.get y
  free : b'.arena.free = b.arena.free
  length : b'.arena.slots.length = b.arena.slots.length
  index : b'.orderIndex = b.orderIndex
  accounts : ∀ a, b'.accounts.lookup a = if a = n.account then some { e with notional := v } else b.accounts.lookup a
  map : ∀ s p, (b'.map s)[p]? = if s = n.side ∧ p = n.price then some { l with totalQty := t } else (b.map s)[p]?
  lastTrade : b'.lastTrade = b.lastTrade

/-! ### What the view says of the new book -/

namespace QtyView

variable {b' : Book} {e : AccountEntry} {v : ℕ} {l : Level} {t : ℕ} (hv : QtyView b b' x q n e v l t)
include hv

theorem slotsOf (he : b.accounts.lookup n.account = some e) (a : ℕ) : b'.slotsOf a = b.slotsOf a := by
  unfold Book.slotsOf
  rw [hv.accounts]
  by_cases ha : a = n.account
  · rw [if_pos ha, ha, he]; rfl
  · rw [if_neg ha]

theorem get_self : b'.arena.get x = some { n with qty := q } := by
  rw [hv.get, if_pos rfl]

theorem get_other {y : ℕ} (hy : y ≠ x) : b'.arena.get y = b.arena.get y := by
  rw [hv.get, if_neg (fun hh => hy hh.symm)]

section Live

variable (hn : b.arena.get x = some n)
include hn

/-- **The changed node keeps everything but its quantity.** -/
theorem get_map {β : Type} (f : Node → β) (hf : f { n with qty := q } = f n) (y : ℕ) :
    (b'.arena.get y).map f = (b.arena.get y).map f := by
  by_cases hy : y = x
  · rw [hy, hv.get_self, hn]
    simp [hf]
  · rw [hv.get_other hy]

theorem exists_iff (φ : Node → Prop) (hφ : φ { n with qty := q } ↔ φ n) (y : ℕ) :
    (∃ m, b'.arena.get y = some m ∧ φ m) ↔ ∃ m, b.arena.get y = some m ∧ φ m := by
  by_cases hy : y = x
  · rw [hy, hv.get_self, hn]
    simp [hφ]
  · rw [hv.get_other hy]

theorem prev_eq : b'.arena.prev = b.arena.prev := by
  funext y
  unfold Arena.prev
  by_cases hy : y = x
  · rw [hy, hv.get_self, hn]; rfl
  · rw [hv.get_other hy]

theorem next_eq : b'.arena.next = b.arena.next := by
  funext y
  unfold Arena.next
  by_cases hy : y = x
  · rw [hy, hv.get_self, hn]; rfl
  · rw [hv.get_other hy]

variable (h : Rep P b R)
include h

theorem live (s : Side) (y : ℕ) (o : Order) :
    (y, o) ∈ requantified R x q s ↔ ∃ m, b'.arena.get y = some m ∧ m.side = s ∧ m.order = o := by
  unfold requantified
  rw [List.mem_map]
  constructor
  · rintro ⟨⟨z, o'⟩, hz, he'⟩
    obtain ⟨m, hm, hms, hmo⟩ := (h.live s z o').1 hz
    by_cases hzx : z = x
    · subst hzx
      obtain rfl : n = m := Option.some.inj (hn.symm.trans hm)
      rw [if_pos rfl, Prod.mk.injEq] at he'
      obtain ⟨rfl, rfl⟩ := he'
      exact ⟨_, hv.get_self, hms, by rw [← hmo]; rfl⟩
    · rw [if_neg hzx, Prod.mk.injEq] at he'
      obtain ⟨rfl, rfl⟩ := he'
      exact ⟨m, by rw [hv.get_other hzx, hm], hms, hmo⟩
  · rintro ⟨m, hm, hms, hmo⟩
    by_cases hy : y = x
    · subst hy
      rw [hv.get_self, Option.some.injEq] at hm
      subst hm
      refine ⟨(y, n.order), (h.live s y _).2 ⟨n, hn, hms, rfl⟩, ?_⟩
      rw [if_pos rfl, ← hmo]
      rfl
    · rw [hv.get_other hy] at hm
      exact ⟨(y, o), (h.live s y o).2 ⟨m, hm, hms, hmo⟩, if_neg hy⟩

/-- Head, tail and count of the level stay; its total follows. -/
theorem level_ok (hl : (b.map n.side)[n.price]? = some l)
    (htot : P.u64.val (qtyAt (plain (requantified R x q n.side)) n.price : ℕ) = some t) (s : Side) (p : ℕ) :
    LevelOK P (b'.map s)[p]? (levelOf (requantified R x q s) p) := by
  rw [hv.map]
  by_cases hsp : s = n.side ∧ p = n.price
  · obtain ⟨rfl, rfl⟩ := hsp
    have hlev := h.level n.side n.price
    rw [hl] at hlev
    obtain ⟨hne, hhead, htail, hcount, -⟩ := hlev
    rw [if_pos ⟨rfl, rfl⟩]
    have hfst := chainOf_requantified R x q n.side n.price
    unfold chainOf at hfst
    refine ⟨?_, ?_, ?_, ?_, ?_⟩
    · rw [levelOf_requantified]; simpa using hne
    · rw [hfst]; exact hhead
    · rw [hfst]; exact htail
    · rw [levelOf_requantified, List.length_map]; exact hcount
    · rw [levelOf_qty]; exact htot
  · rw [if_neg hsp, levelOf_requantified, map_requantify_of_notMem]
    · exact h.level s p
    · intro hx
      obtain ⟨m, hm, hms, hmp⟩ := h.chain_live hx
      obtain rfl : n = m := Option.some.inj (hn.symm.trans hm)
      exact hsp ⟨hms.symm, hmp.symm⟩

theorem notional_ok
    (hnot : P.u128.val (notionalIn (plain (requantified R x q .buy ++ requantified R x q .sell)) n.account : ℕ) =
      some v) (a : ℕ) (f : AccountEntry) (hf : b'.accounts.lookup a = some f) :
    P.u128.val (notionalIn (plain (requantified R x q .buy ++ requantified R x q .sell)) a : ℕ) = some f.notional := by
  rw [hv.accounts] at hf
  by_cases ha : a = n.account
  · rw [if_pos ha, Option.some.injEq] at hf
    rw [ha, hnot, ← hf]
  · rw [if_neg ha] at hf
    have hna := notional_requantified h hn q a
    rw [if_neg (fun hh => ha hh.symm), if_neg (fun hh => ha hh.symm)] at hna
    rw [show notionalIn (plain (requantified R x q .buy ++ requantified R x q .sell)) a =
      notionalIn (plain (R .buy ++ R .sell)) a from hna]
    exact h.notional a f hf

end Live

/-- The view represents the lists with that quantity replaced. -/
theorem rep (h : Rep P b R) (hn : b.arena.get x = some n) (hq : 0 < q)
    (he : b.accounts.lookup n.account = some e) (hl : (b.map n.side)[n.price]? = some l)
    (hnot : P.u128.val (notionalIn (plain (requantified R x q .buy ++ requantified R x q .sell)) n.account : ℕ) =
      some v) (htot : P.u64.val (qtyAt (plain (requantified R x q n.side)) n.price : ℕ) = some t) :
    Rep P b' (requantified R x q) where
  live := hv.live hn h
  nodup s := by
    rw [requantified_fst]
    exact h.nodup s
  sorted s := by
    -- prices do not change
    unfold requantified
    rw [List.pairwise_map]
    refine (h.sorted s).imp ?_
    intro e f hef
    by_cases he' : e.1 = x <;> by_cases hf : f.1 = x <;> simpa [he', hf] using hef
  pos s e' he' := by
    obtain ⟨f, hf, rfl⟩ := List.mem_map.1 he'
    split
    · exact hq
    · exact h.pos s f hf
  level := hv.level_ok hn h hl htot
  linked s p := by
    rw [chainOf_requantified, hv.prev_eq hn, hv.next_eq hn]
    exact h.linked s p
  free := by
    refine h.free.congr hv.free hv.length (fun y => ?_)
    simpa using congrArg Option.isSome (hv.get_map hn (fun _ => ()) rfl y)
  index k y := by
    rw [hv.index, h.index]
    exact (hv.exists_iff hn (fun m => m.key = k) Iff.rfl y).symm
  dense a := by
    rw [hv.slotsOf he]
    refine (h.dense a).congr (hv.exists_iff hn (fun m => m.account = a) Iff.rfl) (fun y _ => ?_)
    unfold Book.acctIdx
    rw [hv.get_map hn Node.acctIdx rfl]
  notional := hv.notional_ok hn h hnot

end QtyView

/-- Lowering a quantity stores sums that can be stored. -/
theorem lowered_sums (h : Rep P b R) (hn : b.arena.get x = some n) (hle : q ≤ n.qty) :
    ∃ l e t v, (b.map n.side)[n.price]? = some l ∧ b.accounts.lookup n.account = some e ∧
      n.qty ≤ qtyAt (plain (R n.side)) n.price ∧
      n.price * n.qty ≤ notionalIn (plain (R .buy ++ R .sell)) n.account ∧
      P.u64.val (qtyAt (plain (R n.side)) n.price : ℕ) = some l.totalQty ∧
      P.u128.val (notionalIn (plain (R .buy ++ R .sell)) n.account : ℕ) = some e.notional ∧
      P.u64.val (qtyAt (plain (requantified R x q n.side)) n.price : ℕ) = some t ∧
      P.u128.val (notionalIn (plain (requantified R x q .buy ++ requantified R x q .sell)) n.account : ℕ) = some v := by
  obtain ⟨l, hl, hlOK⟩ := h.level_some hn
  obtain ⟨e, he, -, -⟩ := h.entry_some hn
  have hsum := hlOK.2.2.2.2
  rw [levelOf_qty] at hsum
  have hv := h.notional n.account e he
  have hq' := qty_requantified h hn q
  have hn' := notional_requantified h hn q n.account
  rw [if_pos rfl, if_pos rfl] at hn'
  have hmul : n.price * q ≤ n.price * n.qty := Nat.mul_le_mul_left _ hle
  obtain ⟨pre, post, hc, -⟩ := requantified_split h hn q
  have hge : n.qty ≤ qtyAt (plain (R n.side)) n.price := by
    rw [hc]
    simp only [plain, List.map_append, List.map_cons, qtyAt_append, qtyAt_cons, Node.order, if_true]
    omega
  have hge' : n.price * n.qty ≤ notionalIn (plain (R .buy ++ R .sell)) n.account := by
    have h0 := notional_requantified h hn 0 n.account
    rw [if_pos rfl, if_pos rfl] at h0
    omega
  obtain ⟨t, ht⟩ := Word.down_nat (n := qtyAt (plain (requantified R x q n.side)) n.price) (by omega) hsum
  obtain ⟨v, hv'⟩ := Word.down_nat
    (n := notionalIn (plain (requantified R x q .buy ++ requantified R x q .sell)) n.account) (by omega) hv
  exact ⟨l, e, t, v, hl, he, hge, hge', hsum, hv, ht, hv'⟩

/-- Both paths write one node, one entry and one level. -/
theorem QtyView.of_arena {a' : Arena} (e : AccountEntry) (v : ℕ) (l : Level) (t : ℕ)
    (hfree : a'.free = b.arena.free) (hlen : a'.slots.length = b.arena.slots.length)
    (hget : ∀ y, a'.get y = if x = y then some { n with qty := q } else b.arena.get y) :
    QtyView b ({ b with arena := a', accounts := b.accounts.insert n.account { e with notional := v } }.setMap
      n.side ((b.map n.side).insert n.price { l with totalQty := t })) x q n e v l t := by
  refine ⟨by simpa using hget, by simpa using hfree, by simpa using hlen, by simp, ?_, ?_, by simp⟩
  · intro a; simp only [Book.setMap_accounts, lookup_insert_if]
  · intro s p
    rw [Book.setMap_map]
    by_cases hs : s = n.side
    · subst hs
      by_cases hp : p = n.price <;> simp [hp, level_insert_if]
    · rw [if_neg hs, if_neg (fun hh => hs hh.1)]; cases s <;> rfl

/-- **A partial fill keeps the representation.** -/
theorem reduce_ok (h : Rep P b R) (hn : b.arena.get x = some n) {f : ℕ} (hf : f < n.qty) :
    ∃ b', b.reduceRestingQty P x n.side n.price f = .ok b' ∧ Rep P b' (requantified R x (n.qty - f)) ∧
      b'.lastTrade = b.lastTrade ∧ b'.arena.slots.length = b.arena.slots.length ∧
      ∀ a, b'.slotsOf a = b.slotsOf a := by
  obtain ⟨l, e, t, v, hl, he, hge, hge', htot, hnot, ht, hv⟩ := lowered_sums h hn (Nat.sub_le n.qty f)
  have hq' := qty_requantified h hn (n.qty - f)
  have hn' := notional_requantified h hn (n.qty - f) n.account
  rw [if_pos rfl, if_pos rfl, Nat.mul_sub] at hn'
  have hmul : n.price * f ≤ n.price * n.qty := Nat.mul_le_mul_left _ hf.le
  obtain ⟨a', e₁, hfree, hlen, hget⟩ := Arena.update_ok hn "reduce called on a live slot"
    (fun n => { n with qty := n.qty - f })
  have ht' : P.u64.val ((l.totalQty : ℤ) - f) = some t := by
    rw [Word.sub (by omega) htot, ← ht]
    congr 2
    omega
  have hv' : P.u128.val ((e.notional : ℤ) - (n.price * f : ℕ)) = some v := by
    rw [Word.sub (by omega) hnot, ← hv]
    congr 2
    omega
  have hview := QtyView.of_arena (x := x) (q := n.qty - f) (n := n) e v l t hfree hlen (by
    intro y
    rw [hget]
    by_cases hy : x = y
    · rw [if_pos hy, if_pos hy, ← hy, hn]; rfl
    · rw [if_neg hy, if_neg hy])
  refine ⟨_, ?_, hview.rep h hn (by omega) he hl hv ht, hview.lastTrade, hview.length, hview.slotsOf he⟩
  simp only [Book.reduceRestingQty, hn, expect_some, bind, Except.bind, e₁, hl, Profile.store64_ok ht', he,
    Profile.store128_ok hv', pure, Except.pure]

/-- **An amend in place keeps the representation.** -/
theorem amend_ok (h : Rep P b R) (hn : b.arena.get x = some n) (hq : 0 < q) (hle : q ≤ n.qty) :
    ∃ b', b.amendInPlace P x n q = .ok b' ∧ Rep P b' (requantified R x q) ∧
      b'.lastTrade = b.lastTrade ∧ b'.arena.slots.length = b.arena.slots.length ∧
      ∀ a, b'.slotsOf a = b.slotsOf a := by
  obtain ⟨l, e, t, v, hl, he, hge, hge', htot, hnot, ht, hv⟩ := lowered_sums h hn hle
  have hq' := qty_requantified h hn q
  have hn' := notional_requantified h hn q n.account
  rw [if_pos rfl, if_pos rfl] at hn'
  obtain ⟨a', e₁, hfree, hlen, hget⟩ := Arena.update_ok hn "just read above" (fun n => { n with qty := q })
  -- the old quantity is taken out before the new one is put in
  obtain ⟨t₀, ht₀⟩ := Word.down_nat (Nat.sub_le _ n.qty) htot
  obtain ⟨v₀, hv₀⟩ := Word.down_nat (Nat.sub_le _ (n.price * n.qty)) hnot
  have ht' : P.u64.val ((t₀ : ℤ) + q) = some t := by
    rw [Word.add ht₀, ← ht]
    congr 2
    omega
  have hv' : P.u128.val ((v₀ : ℤ) + (n.price * q : ℕ)) = some v := by
    rw [Word.add hv₀, ← hv]
    congr 2
    omega
  rw [← Word.sub hge htot] at ht₀
  rw [← Word.sub hge' hnot] at hv₀
  have hview := QtyView.of_arena (x := x) (q := q) (n := n) e v l t hfree hlen (by
    intro y
    rw [hget]
    by_cases hy : x = y
    · rw [if_pos hy, if_pos hy, ← hy, hn]; rfl
    · rw [if_neg hy, if_neg hy])
  refine ⟨_, ?_, hview.rep h hn hq he hl hv ht, hview.lastTrade, hview.length, hview.slotsOf he⟩
  simp only [Book.amendInPlace, expect_some, bind, Except.bind, e₁, hl, Profile.store64_ok ht₀,
    Profile.store64_ok ht', he, Profile.store128_ok hv₀, Profile.store128_ok hv', pure, Except.pure]

end

end MatchingEngine
