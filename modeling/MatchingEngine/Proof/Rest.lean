import MatchingEngine.Proof.Rep

/-!
# `rest` keeps the representation

`rest_ok`: resting an order under a fresh key never panics when the two sums it
grows can be stored, and puts the order behind everything that ranks at least as
well on its side.
-/

namespace MatchingEngine

/-- The labelled lists with one order come to rest. -/
def placed (R : Side → List Slotted) (side : Side) (x : ℕ) (o : Order) (s : Side) : List Slotted :=
  if s = side then insertBack (fun e : Slotted => e.2.price) s.better (x, o) (R s) else R s

theorem mem_placed {R : Side → List Slotted} {side s : Side} {x : ℕ} {o : Order} {e : Slotted} :
    e ∈ placed R side x o s ↔ (s = side ∧ e = (x, o)) ∨ e ∈ R s := by
  unfold placed
  by_cases hs : s = side
  · rw [if_pos hs, mem_insertBack]; simp [hs]
  · rw [if_neg hs]; simp [hs]

section

variable {P : Profile} {b : Book} {R : Side → List Slotted}

theorem levelOf_placed (h : Rep P b R) (side s : Side) (x : ℕ) (o : Order) (p : ℕ) :
    levelOf (placed R side x o s) p =
      levelOf (R s) p ++ (if s = side ∧ o.price = p then [(x, o)] else []) := by
  unfold placed
  by_cases hs : s = side
  · rw [if_pos hs]
    unfold levelOf
    rw [insertBack_filter (f := fun e : Slotted => e.2.price) s.better_refl s.better_trans (x, o) (h.sorted s) p]
    simp [hs]
  · simp [hs]

/-- The level at a price, empty when absent. -/
theorem Rep.level_getD (h : Rep P b R) (s : Side) (p : ℕ) :
    ((b.map s)[p]?.getD .default).head = (chainOf (R s) p).head? ∧
      ((b.map s)[p]?.getD .default).tail = (chainOf (R s) p).getLast? ∧
      ((b.map s)[p]?.getD .default).count = (levelOf (R s) p).length ∧
      P.u64.val (qtyAt (plain (R s)) p : ℕ) = some ((b.map s)[p]?.getD .default).totalQty := by
  have hl := h.level s p
  rw [← levelOf_qty]
  unfold chainOf
  cases hg : (b.map s)[p]? with
  | none =>
    rw [hg] at hl
    simp only [LevelOK] at hl
    rw [hl]
    exact ⟨rfl, rfl, rfl, P.u64.zero⟩
  | some l =>
    rw [hg] at hl
    exact hl.2

/-- An account's stored notional, zero without an entry. -/
theorem Rep.notional_getD (h : Rep P b R) (a : ℕ) :
    P.u128.val (notionalIn (plain (R .buy ++ R .sell)) a : ℕ) =
      some ((b.accounts.lookup a).getD .default).notional := by
  cases he : b.accounts.lookup a with
  | some e => exact h.notional a e he
  | none =>
    have hnil : b.slotsOf a = [] := by simp [Book.slotsOf, he]
    have hzero : notionalIn (plain (R .buy ++ R .sell)) a = 0 := by
      have hf : (plain (R .buy ++ R .sell)).filter (fun o => o.account = a) = [] := by
        rw [List.filter_eq_nil_iff]
        intro o ho
        obtain ⟨⟨x, o'⟩, hx, rfl⟩ := List.mem_map.1 ho
        obtain ⟨s, hs⟩ := mem_sides.1 hx
        obtain ⟨n, hn, -, ho⟩ := (h.live s x o').1 hs
        simp only [decide_eq_true_eq]
        intro ha
        have hmem : x ∈ b.slotsOf a := (h.dense a).mem_iff.2 ⟨n, hn, by rw [← ha, ← ho]; rfl⟩
        rw [hnil] at hmem
        simp at hmem
      simp [notionalIn, hf]
    rw [hzero]
    exact P.u128.zero

/-- What resting in slot `x` behind `oldTail` does to the node in slot `y`. -/
def appended (oldTail : Option ℕ) (x y : ℕ) (m : Node) : Node :=
  { m with next := if oldTail = some y then some x else m.next }

/-- The arena steps of `rest`. -/
theorem rest_arena (h : Rep P b R) (n : Node) {oldTail : Option ℕ}
    (ht : ∀ y, oldTail = some y → ∃ m, b.arena.get y = some m) (hp : n.prev = none) :
    ∃ (a₁ a₂ a₃ : Arena) (x : ℕ), b.arena.insert n = .ok (a₁, x) ∧ b.arena.get x = none ∧
      a₁.updateLink oldTail "old tail must be live" (fun m => { m with next := some x }) = .ok a₂ ∧
      (if oldTail = none then Except.ok a₂
        else a₂.update x "just inserted" (fun m => { m with prev := oldTail })) = .ok a₃ ∧
      a₃.FreeOK ∧ a₃.slots.length ≤ max b.arena.slots.length (b.arena.len + 1) ∧
      ∀ y, a₃.get y = if y = x then some { n with prev := oldTail }
        else (b.arena.get y).map (appended oldTail x y) := by
  obtain ⟨a₁, x, e₁, hx, f₁, l₁, g₁⟩ := Arena.insert_ok h.free n
  have hle : a₁.slots.length ≤ max b.arena.slots.length (b.arena.len + 1) := le_of_eq l₁
  have hxt : oldTail ≠ some x := by
    intro he
    obtain ⟨m, hm⟩ := ht x he
    rw [hx] at hm
    simp at hm
  have live₁ : ∀ y, oldTail = some y → ∃ m, a₁.get y = some m := by
    intro y hy
    obtain ⟨m, hm⟩ := ht y hy
    have hyx : y ≠ x := fun he => hxt (he ▸ hy)
    exact ⟨m, by rw [g₁, if_neg hyx, hm]⟩
  obtain ⟨a₂, e₂, f₂, l₂, g₂⟩ := Arena.updateLink_ok live₁ "old tail must be live"
    (fun m => { m with next := some x })
  have hfree₂ : a₂.FreeOK := f₁.congr f₂ l₂ (fun y => by rw [g₂]; split <;> simp)
  have hx₂ : a₂.get x = some n := by rw [g₂, if_neg hxt, g₁, if_pos rfl]
  have hview₂ : ∀ y, y ≠ x → a₂.get y = (b.arena.get y).map (appended oldTail x y) := by
    intro y hy
    rw [g₂, g₁, if_neg hy]
    cases b.arena.get y with
    | none => simp
    | some m => by_cases hty : oldTail = some y <;> simp [appended, hty]
  cases hold : oldTail with
  | none =>
    rw [hold] at e₂ hview₂
    refine ⟨a₁, a₂, a₂, x, e₁, hx, e₂, by simp, hfree₂, l₂ ▸ hle, ?_⟩
    intro y
    by_cases hy : y = x
    · rw [if_pos hy, hy, hx₂, ← hp]
    · rw [if_neg hy, hview₂ y hy]
  | some z =>
    rw [hold] at e₂ hview₂
    obtain ⟨a₃, e₃, f₃, l₃, g₃⟩ := Arena.update_ok hx₂ "just inserted" (fun m => { m with prev := some z })
    refine ⟨a₁, a₂, a₃, x, e₁, hx, e₂, by simpa using e₃, hfree₂.congr f₃ l₃ (fun y => by rw [g₃]; split <;> simp),
      (l₃.trans l₂) ▸ hle, ?_⟩
    intro y
    rw [g₃]
    by_cases hy : y = x
    · rw [if_pos hy.symm, if_pos hy, hy, hx₂]; rfl
    · rw [if_neg (fun he => hy he.symm), if_neg hy, hview₂ y hy]

/-- The book after resting node `n` in slot `x`, field by field. -/
structure RestView (b b' : Book) (x : ℕ) (n : Node) (oldTail : Option ℕ) (v : ℕ) (level : Level) : Prop where
  fresh : b.arena.get x = none
  get : ∀ y, b'.arena.get y = if y = x then some { n with prev := oldTail }
    else (b.arena.get y).map (appended oldTail x y)
  free : b'.arena.FreeOK
  length : b'.arena.slots.length ≤ max b.arena.slots.length (b.arena.len + 1)
  index : b'.orderIndex = b.orderIndex.insert n.key x
  accounts : ∀ a, b'.accounts.lookup a = if a = n.account
    then some { slots := b.slotsOf n.account ++ [x], notional := v } else b.accounts.lookup a
  map : ∀ s p, (b'.map s)[p]? = if s = n.side ∧ p = n.price then some level else (b.map s)[p]?
  lastTrade : b'.lastTrade = b.lastTrade

/-- `rest` runs to its end when the two sums can be stored, and what it leaves. -/
theorem rest_view (h : Rep P b R) (a o : ℕ) (side : Side) (p q : ℕ)
    (h64 : (P.u64.val (qtyAt (plain (R side)) p + q : ℕ)).isSome)
    (h128 : (P.u128.val (notionalIn (plain (R .buy ++ R .sell)) a + p * q : ℕ)).isSome) :
    ∃ b' x v level, b.rest P a o side p q = .ok b' ∧
      RestView b b' x ⟨o, a, p, q, side, none, none, (b.slotsOf a).length⟩ (chainOf (R side) p).getLast? v level ∧
      P.u128.val (notionalIn (plain (R .buy ++ R .sell)) a + p * q : ℕ) = some v ∧
      LevelOK P (some level) (levelOf (R side) p ++ [(x, ⟨a, o, p, q⟩)]) := by
  obtain ⟨hhead, htail, hcount, htotal⟩ := h.level_getD side p
  have hnot := h.notional_getD a
  obtain ⟨v, hv⟩ := Option.isSome_iff_exists.1 h128
  obtain ⟨t, ht⟩ := Option.isSome_iff_exists.1 h64
  have hv' := hv
  have ht' := ht
  rw [← Word.add hnot] at hv'
  rw [← Word.add htotal] at ht'
  have hslots : ((b.accounts.lookup a).getD .default).slots = b.slotsOf a := by
    unfold Book.slotsOf
    cases b.accounts.lookup a <;> rfl
  have hlive : ∀ y, (chainOf (R side) p).getLast? = some y → ∃ m, b.arena.get y = some m := by
    intro y hy
    obtain ⟨m, hm, -⟩ := h.chain_live (List.mem_of_getLast? hy)
    exact ⟨m, hm⟩
  obtain ⟨a₁, a₂, a₃, x, e₁, hx, e₂, e₃, hfree, hlen, hget⟩ :=
    rest_arena h ⟨o, a, p, q, side, none, none, (b.slotsOf a).length⟩ hlive rfl
  set l := (b.map side)[p]?.getD .default with hl
  set l' : Level := { head := if l.tail = none then some x else l.head, tail := some x, totalQty := t,
                      count := l.count + 1 } with hl'
  set b' : Book := { b with
    arena := a₃
    accounts := (b.accounts.insert a ((b.accounts.lookup a).getD .default)).insert a
      { slots := b.slotsOf a ++ [x], notional := v }
    orderIndex := b.orderIndex.insert (a, o) x }.setMap side ((b.map side).insert p l') with hb'
  refine ⟨b', x, v, l', ?_, ⟨hx, ?_, ?_, ?_, ?_, ?_, ?_, by simp [hb']⟩, hv, ?_⟩
  · rw [← htail] at e₂ e₃
    simp only [Book.rest, hslots, e₁, bind, Except.bind, lookup_insert_if, if_true, expect_some,
      Profile.store128_ok hv', ← hl, Profile.store64_ok ht', e₂, pure, Except.pure]
    -- the back link is written only when there is an old tail
    by_cases hnone : l.tail = none
    · rw [if_pos hnone, Except.ok.injEq] at e₃
      rw [if_pos hnone, e₃]
    · rw [if_neg hnone] at e₃
      rw [if_neg hnone, e₃]
  · simpa [hb'] using hget
  · simpa [hb'] using hfree
  · simpa only [hb', Book.setMap_arena] using hlen
  · simp [hb', Node.key]
  · intro a'
    simp only [hb', Book.setMap_accounts, lookup_insert_if]
    by_cases ha : a' = a <;> simp [ha]
  · intro s p'
    rw [hb', Book.setMap_map]
    by_cases hs : s = side
    · subst hs
      by_cases hp : p' = p <;> simp [hp, level_insert_if]
    · rw [if_neg hs, if_neg (fun hh => hs hh.1)]; cases s <;> rfl
  · refine ⟨by simp, ?_, by simp [hl'], by simp [hl', hcount], ?_⟩
    · have hlh : l'.head = if l.tail = none then some x else l.head := rfl
      rw [hlh, htail, hhead]
      unfold chainOf
      cases hc : levelOf (R side) p with
      | nil => simp
      | cons f c => simp
    · rw [List.map_append, List.sum_append, levelOf_qty]
      simpa [hl'] using ht

/-- The new order adds its notional to its own account and no other. -/
theorem notional_placed (R : Side → List Slotted) (side : Side) (x : ℕ) (o : Order) (a : ℕ) :
    notionalIn (plain (placed R side x o .buy ++ placed R side x o .sell)) a =
      notionalIn (plain (R .buy ++ R .sell)) a + (if o.account = a then o.price * o.qty else 0) := by
  have hside : notionalIn (plain (placed R side x o side)) a =
      (if o.account = a then o.price * o.qty else 0) + notionalIn (plain (R side)) a := by
    have hp : (plain (placed R side x o side)).Perm (o :: plain (R side)) := by
      unfold placed plain
      rw [if_pos rfl]
      exact (insertBack_perm _ _).map Prod.snd
    rw [notionalIn_perm hp, notionalIn_cons]
  have hother : ∀ s, s ≠ side → placed R side x o s = R s := fun s hs => if_neg hs
  unfold plain at hside ⊢
  rw [List.map_append, List.map_append, notionalIn_append, notionalIn_append]
  cases side with
  | buy => rw [hside, hother .sell (by decide)]; omega
  | sell => rw [hside, hother .buy (by decide)]; omega

/-! ### What the view says of the new book -/

namespace RestView

variable {b' : Book} {x a o p q v : ℕ} {side : Side} {level : Level}
  (hv : RestView b b' x ⟨o, a, p, q, side, none, none, (b.slotsOf a).length⟩ (chainOf (R side) p).getLast? v level)
include hv

theorem get_new : b'.arena.get x =
    some ⟨o, a, p, q, side, (chainOf (R side) p).getLast?, none, (b.slotsOf a).length⟩ := by
  rw [hv.get, if_pos rfl]

theorem ne_new {y : ℕ} {m : Node} (hm : b.arena.get y = some m) : y ≠ x := by
  rintro rfl
  rw [hv.fresh] at hm
  simp at hm

theorem get_old {y : ℕ} {m : Node} (hm : b.arena.get y = some m) :
    b'.arena.get y = some (appended (chainOf (R side) p).getLast? x y m) := by
  rw [hv.get, if_neg (hv.ne_new hm), hm]
  rfl

/-- **The new slot holds the new order, the others keep theirs.** -/
theorem exists_iff (φ : Node → Prop) (hφ : ∀ y m, φ (appended (chainOf (R side) p).getLast? x y m) ↔ φ m) (y : ℕ) :
    (∃ m', b'.arena.get y = some m' ∧ φ m') ↔ (∃ m, b.arena.get y = some m ∧ φ m) ∨
      (y = x ∧ φ ⟨o, a, p, q, side, (chainOf (R side) p).getLast?, none, (b.slotsOf a).length⟩) := by
  constructor
  · rintro ⟨m', hm', h'⟩
    by_cases hy : y = x
    · rw [hy, hv.get_new, Option.some.injEq] at hm'
      exact Or.inr ⟨hy, hm' ▸ h'⟩
    · rw [hv.get, if_neg hy, Option.map_eq_some_iff] at hm'
      obtain ⟨m, hm, rfl⟩ := hm'
      exact Or.inl ⟨m, hm, (hφ y m).1 h'⟩
  · rintro (⟨m, hm, h'⟩ | ⟨rfl, h'⟩)
    · exact ⟨_, hv.get_old hm, (hφ y m).2 h'⟩
    · exact ⟨_, hv.get_new, h'⟩

variable (h : Rep P b R)
include h

theorem live (s : Side) (y : ℕ) (o' : Order) :
    (y, o') ∈ placed R side x ⟨a, o, p, q⟩ s ↔ ∃ m, b'.arena.get y = some m ∧ m.side = s ∧ m.order = o' := by
  rw [mem_placed, h.live, hv.exists_iff (fun m => m.side = s ∧ m.order = o') (fun _ _ => Iff.rfl), or_comm]
  refine or_congr Iff.rfl ?_
  rw [Prod.mk.injEq]
  constructor
  · rintro ⟨rfl, rfl, rfl⟩
    exact ⟨rfl, rfl, rfl⟩
  · rintro ⟨rfl, hs, ho⟩
    exact ⟨hs.symm, rfl, ho.symm⟩

theorem nodup (s : Side) : ((placed R side x ⟨a, o, p, q⟩ s).map Prod.fst).Nodup := by
  unfold placed
  split
  · rw [((insertBack_perm _ _).map Prod.fst).nodup_iff, List.map_cons, List.nodup_cons]
    refine ⟨fun hx => ?_, h.nodup s⟩
    obtain ⟨⟨y, o'⟩, hy, rfl⟩ := List.mem_map.1 hx
    obtain ⟨m, hm, -⟩ := (h.live s y o').1 hy
    exact hv.ne_new hm rfl
  · exact h.nodup s

omit hv in
theorem levelOf_self : levelOf (placed R side x ⟨a, o, p, q⟩ side) p = levelOf (R side) p ++ [(x, ⟨a, o, p, q⟩)] := by
  rw [levelOf_placed h, if_pos ⟨rfl, rfl⟩]

omit hv in
theorem levelOf_other {s : Side} {p' : ℕ} (hne : ¬ (s = side ∧ p' = p)) :
    levelOf (placed R side x ⟨a, o, p, q⟩ s) p' = levelOf (R s) p' := by
  rw [levelOf_placed h, if_neg (fun hh => hne ⟨hh.1, hh.2.symm⟩), List.append_nil]

theorem level_ok (hlev : LevelOK P (some level) (levelOf (R side) p ++ [(x, ⟨a, o, p, q⟩)])) (s : Side) (p' : ℕ) :
    LevelOK P (b'.map s)[p']? (levelOf (placed R side x ⟨a, o, p, q⟩ s) p') := by
  rw [hv.map]
  by_cases hsp : s = side ∧ p' = p
  · rw [if_pos hsp, hsp.1, hsp.2, levelOf_self h]
    exact hlev
  · rw [if_neg hsp, levelOf_other h hsp]
    exact h.level s p'

omit h in
theorem prev_old {y : ℕ} {m : Node} (hm : b.arena.get y = some m) : b'.arena.prev y = b.arena.prev y := by
  unfold Arena.prev
  rw [hv.get_old hm, hm]
  rfl

omit h in
theorem next_old {y : ℕ} {m : Node} (hm : b.arena.get y = some m) :
    b'.arena.next y = if (chainOf (R side) p).getLast? = some y then some x else b.arena.next y := by
  unfold Arena.next
  rw [hv.get_old hm, hm]
  by_cases ht : (chainOf (R side) p).getLast? = some y <;> simp [appended, ht]

/-- The level the order joins gets one more link at its end; the others keep theirs. -/
theorem linked (s : Side) (p' : ℕ) :
    Linked b'.arena.prev b'.arena.next (chainOf (placed R side x ⟨a, o, p, q⟩ s) p') := by
  by_cases hsp : s = side ∧ p' = p
  · have hchain : chainOf (placed R side x ⟨a, o, p, q⟩ side) p = chainOf (R side) p ++ [x] := by
      unfold chainOf
      rw [levelOf_self h, List.map_append]
      rfl
    rw [hsp.1, hsp.2, hchain]
    apply (h.linked side p).push
    · intro hx
      obtain ⟨m, hm, -⟩ := h.chain_live hx
      exact hv.ne_new hm rfl
    · exact levelOf_nodup (h.nodup side) p
    · simp [Arena.prev, hv.get_new]
    · simp [Arena.next, hv.get_new]
    · intro y hy
      obtain ⟨m, hm, -⟩ := h.chain_live hy
      exact hv.prev_old hm
    · intro y hy
      obtain ⟨m, hm, -⟩ := h.chain_live hy
      exact hv.next_old hm
  · unfold chainOf
    rw [levelOf_other h hsp]
    apply (h.linked s p').congr
    · intro y hy
      obtain ⟨m, hm, -⟩ := h.chain_live hy
      exact hv.prev_old hm
    · intro y hy
      obtain ⟨m, hm, hms, hmp⟩ := h.chain_live hy
      rw [hv.next_old hm, if_neg]
      -- the old tail is on another level
      intro ht
      obtain ⟨m', hm', hms', hmp'⟩ := h.chain_live (List.mem_of_getLast? ht)
      obtain rfl : m = m' := Option.some.inj (hm.symm.trans hm')
      exact hsp ⟨hms.symm.trans hms', hmp.symm.trans hmp'⟩

theorem index_ok (hk : b.orderIndex.lookup (a, o) = none) (k : Key) (y : ℕ) :
    b'.orderIndex.lookup k = some y ↔ ∃ m, b'.arena.get y = some m ∧ m.key = k := by
  rw [hv.exists_iff (fun m => m.key = k) (fun _ _ => Iff.rfl), ← h.index, hv.index, lookup_insert_if]
  show (if k = (a, o) then some x else b.orderIndex.lookup k) = some y ↔
    b.orderIndex.lookup k = some y ∨ y = x ∧ (a, o) = k
  by_cases hkk : k = (a, o)
  · rw [if_pos hkk, hkk, hk]
    simp [eq_comm]
  · rw [if_neg hkk]
    exact ⟨Or.inl, fun hh => hh.resolve_right (fun he => hkk he.2.symm)⟩

theorem dense (a' : ℕ) : DenseArray (b'.slotsOf a') (b'.Owned a') b'.acctIdx := by
  have hidx : ∀ y, b.Owned a' y → b'.acctIdx y = b.acctIdx y := by
    rintro y ⟨m, hm, -⟩
    unfold Book.acctIdx
    rw [hv.get_old hm, hm]
    rfl
  have hown : ∀ y, b'.Owned a' y ↔ b.Owned a' y ∨ (y = x ∧ a = a') :=
    hv.exists_iff (fun m => m.account = a') (fun _ _ => Iff.rfl)
  have hslots : b'.slotsOf a' = if a' = a then b.slotsOf a ++ [x] else b.slotsOf a' := by
    unfold Book.slotsOf
    rw [hv.accounts]
    by_cases ha : a' = a <;> simp [ha, Book.slotsOf]
  rw [hslots]
  by_cases ha : a' = a
  · subst ha
    rw [if_pos rfl]
    apply (h.dense a').push
    · rintro ⟨m, hm, -⟩
      exact hv.ne_new hm rfl
    · intro y
      rw [hown]
      simp
    · simp [Book.acctIdx, hv.get_new]
    · exact hidx
  · rw [if_neg ha]
    refine (h.dense a').congr (fun y => ?_) hidx
    rw [hown]
    exact ⟨fun hh => hh.resolve_right (fun he => ha he.2.symm), Or.inl⟩

theorem notional_ok (hnot : P.u128.val (notionalIn (plain (R .buy ++ R .sell)) a + p * q : ℕ) = some v) (a' : ℕ)
    (f : AccountEntry) (hf : b'.accounts.lookup a' = some f) :
    P.u128.val (notionalIn (plain (placed R side x ⟨a, o, p, q⟩ .buy ++ placed R side x ⟨a, o, p, q⟩ .sell)) a' : ℕ) =
      some f.notional := by
  rw [hv.accounts] at hf
  rw [notional_placed]
  by_cases ha : a' = a
  · subst ha
    rw [if_pos rfl, Option.some.injEq] at hf
    rw [if_pos rfl, hnot, ← hf]
  · rw [if_neg ha] at hf
    rw [if_neg (fun hh => ha hh.symm), Nat.add_zero]
    exact h.notional a' f hf

/-- The view of a book with an order come to rest represents the lists with it placed. -/
theorem rep (hk : b.orderIndex.lookup (a, o) = none) (hq : 0 < q)
    (hnot : P.u128.val (notionalIn (plain (R .buy ++ R .sell)) a + p * q : ℕ) = some v)
    (hlev : LevelOK P (some level) (levelOf (R side) p ++ [(x, ⟨a, o, p, q⟩)])) :
    Rep P b' (placed R side x ⟨a, o, p, q⟩) where
  live := hv.live h
  nodup := hv.nodup h
  sorted s := by
    unfold placed
    split
    · exact insertBack_sorted (f := fun e : Slotted => e.2.price) s.better_total s.better_trans _ (h.sorted s)
    · exact h.sorted s
  pos s f hf := by
    rcases mem_placed.1 hf with ⟨-, rfl⟩ | hf
    · exact hq
    · exact h.pos s f hf
  level := hv.level_ok h hlev
  linked := hv.linked h
  free := hv.free
  index := hv.index_ok h hk
  dense := hv.dense h
  notional := hv.notional_ok h hnot

end RestView

/-- **`rest` keeps the representation**, under a fresh key and with storable sums. -/
theorem rest_ok (h : Rep P b R) {a o : ℕ} {side : Side} {p q : ℕ} (hk : b.orderIndex.lookup (a, o) = none)
    (hq : 0 < q) (h64 : (P.u64.val (qtyAt (plain (R side)) p + q : ℕ)).isSome)
    (h128 : (P.u128.val (notionalIn (plain (R .buy ++ R .sell)) a + p * q : ℕ)).isSome) :
    ∃ b' x, b.rest P a o side p q = .ok b' ∧ Rep P b' (placed R side x ⟨a, o, p, q⟩) ∧
      b.arena.get x = none ∧ b'.lastTrade = b.lastTrade ∧
      b'.arena.slots.length ≤ max b.arena.slots.length (b.arena.len + 1) ∧
      ∀ a', b'.slotsOf a' = if a' = a then b.slotsOf a ++ [x] else b.slotsOf a' := by
  obtain ⟨b', x, v, level, hb', hview, hnot, hlev⟩ := rest_view h a o side p q h64 h128
  refine ⟨b', x, hb', hview.rep h hk hq hnot hlev, hview.fresh, hview.lastTrade, hview.length, ?_⟩
  intro a'
  unfold Book.slotsOf
  rw [hview.accounts]
  by_cases ha : a' = a <;> simp [ha, Book.slotsOf]

end

end MatchingEngine
