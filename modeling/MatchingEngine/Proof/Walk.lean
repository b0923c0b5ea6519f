import MatchingEngine.Proof.Sweep

/-!
# The loops along the chains

`is_fillable` and `snapshot` read whole levels along their links.

* `Sim.isFillable`: the FOK check compares the quantity with the foreign crossing depth.
* `Sim.snapshot`: a snapshot of a book without a zero price reports the reference state;
  all of `walk_level`'s checks pass.
* `Sim.snapshot_zero`: with a zero price in the book it panics.
-/

namespace MatchingEngine

/-- The quantity of the orders of other accounts. -/
def foreignQty (a : ℕ) (l : List Order) : ℕ := ((l.filter (fun o => o.account ≠ a)).map Order.qty).sum

theorem foreignQty_append (a : ℕ) (l l' : List Order) : foreignQty a (l ++ l') = foreignQty a l + foreignQty a l' := by
  simp [foreignQty]

theorem foreignQty_cons (a : ℕ) (o : Order) (l : List Order) :
    foreignQty a (o :: l) = (if o.account = a then 0 else o.qty) + foreignQty a l := by
  unfold foreignQty
  by_cases h : o.account = a <;> simp [h]

section Chains

variable {P : Profile} {b : Book} {R : Side → List Slotted} {s : Side} {p : ℕ}

/-- A node of a level, with its links read off the level. -/
theorem Rep.node_at (h : Rep P b R) {pre post : List Slotted} {x : ℕ} {o : Order}
    (hc : levelOf (R s) p = pre ++ (x, o) :: post) :
    ∃ n, b.arena.get x = some n ∧ n.side = s ∧ n.order = o ∧ n.price = p ∧
      n.prev = (pre.map Prod.fst).getLast? ∧ n.next = (post.map Prod.fst).head? := by
  have he : (x, o) ∈ levelOf (R s) p := by rw [hc]; simp
  obtain ⟨hm, hp⟩ := mem_levelOf.1 he
  obtain ⟨n, hn, hns, hno⟩ := (h.live s x o).1 hm
  have hl := h.linked s p (pre.map Prod.fst) x (post.map Prod.fst) (by unfold chainOf; rw [hc]; simp)
  simp only [Arena.prev, Arena.next, hn, Option.bind_some] at hl
  exact ⟨n, hn, hns, hno, by rw [← hp, ← hno]; rfl, hl.1, hl.2⟩

/-- Walking a chain for the FOK check: either the foreign quantity suffices, or all of it is
subtracted. -/
theorem Rep.levelForeignQty (h : Rep P b R) (a : ℕ) :
    ∀ (post pre : List Slotted) (fuel needed : ℕ), levelOf (R s) p = pre ++ post → post.length ≤ fuel →
      ∃ hit needed', Book.levelForeignQty b.arena a fuel (post.map Prod.fst).head? needed = .ok (hit, needed') ∧
        (hit = true → needed ≤ foreignQty a (plain post)) ∧
        (hit = false → needed' + foreignQty a (plain post) = needed) := by
  intro post
  induction post with
  | nil =>
    intro pre fuel needed _ _
    refine ⟨false, needed, ?_, by simp, by simp [plain, foreignQty]⟩
    cases fuel <;> rfl
  | cons e post ih =>
    obtain ⟨x, o⟩ := e
    intro pre fuel needed hc hfuel
    obtain ⟨f, rfl⟩ : ∃ f, fuel = f + 1 := ⟨fuel - 1, by rw [List.length_cons] at hfuel; omega⟩
    rw [List.length_cons] at hfuel
    obtain ⟨n, hn, -, hno, -, -, hnext⟩ := h.node_at hc
    have hacc : o.account = n.account := by rw [← hno]; rfl
    have hqty : o.qty = n.qty := by rw [← hno]; rfl
    have hc' : levelOf (R s) p = (pre ++ [(x, o)]) ++ post := by rw [hc]; simp
    have hplain : plain ((x, o) :: post) = o :: plain post := rfl
    rw [hplain, foreignQty_cons, hacc, hqty]
    simp only [List.map_cons, List.head?_cons, Book.levelForeignQty, hn, expect_some, bind, Except.bind]
    by_cases ha : n.account = a
    · rw [if_neg (by simpa using ha), if_pos ha, hnext, Nat.zero_add]
      exact ih _ f needed hc' (by omega)
    · rw [if_pos ha, if_neg ha]
      by_cases hz : needed - min needed n.qty = 0
      · rw [if_pos hz]
        exact ⟨true, _, rfl, fun _ => by omega, by simp⟩
      · rw [if_neg hz, hnext]
        obtain ⟨hit, needed', he, h1, h2⟩ := ih _ f (needed - min needed n.qty) hc' (by omega)
        refine ⟨hit, needed', he, ?_, ?_⟩
        · intro hh; have := h1 hh; omega
        · intro hh; have := h2 hh; omega

/-- The accumulators of `walk_level` after the chain's first part. -/
theorem Rep.walkLoop (h : Rep P b R) (hp : p ≠ 0) :
    ∀ (post pre : List Slotted) (fuel total : ℕ), levelOf (R s) p = pre ++ post → post.length ≤ fuel →
      P.u64.val ((pre.map (fun e => e.2.qty)).sum : ℕ) = some total →
      (P.u64.val (((pre ++ post).map (fun e => e.2.qty)).sum : ℕ)).isSome →
      ∃ total', Book.walkLoop P b.arena s p fuel (pre.map Prod.fst) total (pre.map Prod.fst).getLast?
          (post.map Prod.fst).head? = .ok (chainOf (R s) p, total', (chainOf (R s) p).getLast?) ∧
        P.u64.val (((pre ++ post).map (fun e => e.2.qty)).sum : ℕ) = some total' := by
  intro post
  induction post with
  | nil =>
    intro pre fuel total hc _ htot _
    refine ⟨total, ?_, by simpa using htot⟩
    unfold chainOf
    rw [hc, List.append_nil]
    cases fuel <;> rfl
  | cons e post ih =>
    obtain ⟨x, o⟩ := e
    intro pre fuel total hc hfuel htot hfits
    obtain ⟨f, rfl⟩ : ∃ f, fuel = f + 1 := ⟨fuel - 1, by rw [List.length_cons] at hfuel; omega⟩
    rw [List.length_cons] at hfuel
    obtain ⟨n, hn, hns, hno, hnp, hprev, hnext⟩ := h.node_at hc
    have hqty : n.qty ≠ 0 := by
      have he : (x, o) ∈ levelOf (R s) p := by rw [hc]; simp
      have := h.pos s _ (mem_levelOf.1 he).1
      rw [← hno] at this
      exact this.ne'
    have hc' : levelOf (R s) p = (pre ++ [(x, o)]) ++ post := by rw [hc]; simp
    have hsum : ((pre ++ [(x, o)]).map (fun e => e.2.qty)).sum = (pre.map (fun e => e.2.qty)).sum + n.qty := by
      rw [← hno]; simp [Node.order]
    have happ : (pre ++ (x, o) :: post) = (pre ++ [(x, o)]) ++ post := by simp
    rw [happ] at hfits ⊢
    -- the partial sum is below the full one
    obtain ⟨t, ht⟩ : ∃ t, P.u64.val (((pre ++ [(x, o)]).map (fun e => e.2.qty)).sum : ℕ) = some t := by
      obtain ⟨v, hv⟩ := Option.isSome_iff_exists.1 hfits
      refine Word.down_nat ?_ hv
      generalize pre ++ [(x, o)] = m
      rw [List.map_append, List.sum_append]
      exact Nat.le_add_right _ _
    have ht' : P.u64.val ((total : ℤ) + n.qty) = some t := by rw [Word.add htot, ← ht, hsum]
    obtain ⟨total', he, hv⟩ := ih (pre ++ [(x, o)]) f t hc' (by omega) ht hfits
    refine ⟨total', ?_, hv⟩
    rw [← he]
    have hcheck : ∀ msg, check (n.prev = (pre.map Prod.fst).getLast?) msg = .ok () := fun msg => if_pos hprev
    have hcheck₂ : ∀ msg, check (n.price = p) msg = .ok () := fun msg => if_pos hnp
    have hcheck₃ : ∀ msg, check (n.side = s) msg = .ok () := fun msg => if_pos hns
    have hcheck₄ : ∀ msg, check (n.qty ≠ 0) msg = .ok () := fun msg => if_pos hqty
    have hcheck₅ : ∀ msg, check (n.price ≠ 0) msg = .ok () := fun msg => if_pos (hnp ▸ hp)
    simp only [List.map_cons, List.head?_cons, Book.walkLoop, hn, expect_some, bind, Except.bind, hcheck, hcheck₂,
      hcheck₃, hcheck₄, hcheck₅, Profile.store64_ok ht', hnext, List.map_append, List.map_nil, List.getLast?_concat]

end Chains

namespace Sim

variable {P : Profile} {N : ℕ∞} {b : Book} {r : Ref} {a : ℕ} {s : Side}

/-- The levels of a side, best first. -/
def levelsBestFirst (b : Book) : Side → List (ℕ × Level)
  | .buy => b.bids.toList.reverse
  | .sell => b.asks.toList

theorem levelsBestFirst_fst (b : Book) (s : Side) : (levelsBestFirst b s).map Prod.fst = b.pricesBestFirst s := by
  cases s with
  | buy => simp [levelsBestFirst, Book.pricesBestFirst]
  | sell => simp [levelsBestFirst, Book.pricesBestFirst]

theorem mem_levelsBestFirst {e : ℕ × Level} (he : e ∈ levelsBestFirst b s) : (b.map s)[e.1]? = some e.2 := by
  cases s with
  | buy =>
    unfold levelsBestFirst at he
    rw [List.mem_reverse] at he
    exact Std.ExtTreeMap.mem_toList_iff_getElem?_eq_some.1 he
  | sell => exact Std.ExtTreeMap.mem_toList_iff_getElem?_eq_some.1 he

/-- **The occupied prices, best first**, are those of the orders, each once. -/
theorem prices_eq (h : Sim P N b r) (s : Side) : b.pricesBestFirst s = ((r.side s).map Order.price).dedup := by
  have hsort := Rep.pricesBestFirst_sorted b s
  refine List.Perm.eq_of_pairwise (fun p q _ _ => s.better_antisymm p q) ?_ ?_ ?_
  · exact hsort.imp (fun hh => hh.1)
  · have hs := h.wf.sorted s
    rw [← List.pairwise_map (f := Order.price) (R := s.better)] at hs
    exact hs.sublist (List.dedup_sublist _)
  · rw [List.perm_ext_iff_of_nodup (hsort.imp (fun hh => hh.2)) (List.nodup_dedup _)]
    intro p
    rw [Rep.mem_pricesBestFirst, h.mem_map_iff, List.mem_dedup, List.mem_map]

/-- A side is its levels, best first, one after the other. -/
theorem side_eq (h : Sim P N b r) (s : Side) :
    (b.pricesBestFirst s).flatMap (fun p => (r.side s).filter (fun o => o.price = p)) = r.side s :=
  flatMap_filter (f := Order.price) s.better_antisymm (h.wf.sorted s) (Rep.pricesBestFirst_sorted b s)
    (fun o ho => Rep.mem_pricesBestFirst.2 ((h.mem_map_iff s o.price).2 ⟨o, ho, rfl⟩))

/-- A level's orders, with their slots. -/
theorem level_labels (h : Sim P N b r) {p : ℕ} {l : Level} (hl : (b.map s)[p]? = some l) :
    ∃ R, Rep P b R ∧ LevelOK P (some l) (levelOf (R s) p) ∧
      plain (levelOf (R s) p) = (r.side s).filter (fun o => o.price = p) := by
  obtain ⟨R, hR, rfl⟩ := h.labels
  refine ⟨R, hR, ?_, ?_⟩
  · rw [← hl]; exact hR.level s p
  · rw [levelOf_plain, absOf_side]

/-- One level of the FOK check. -/
theorem fillableLevels_cons (b : Book) (a : ℕ) (s : Side) (limit p : ℕ) (l : Level) (ls : List (ℕ × Level))
    (needed : ℕ) :
    Book.fillableLevels b a s limit ((p, l) :: ls) needed =
      if s.crosses limit p then (Book.levelForeignQty b.arena a (b.arena.slots.length + 1) l.head needed).bind
        (fun v => if v.1 then .ok true else Book.fillableLevels b a s limit ls v.2)
      else .ok (decide (needed = 0)) := by
  cases s with
  | buy => by_cases hx : p ≤ limit <;> simp [Book.fillableLevels, Side.crosses, hx, bind, pure, Except.pure]
  | sell => by_cases hx : limit ≤ p <;> simp [Book.fillableLevels, Side.crosses, hx, bind, pure, Except.pure]

/-- The level loop of the FOK check. -/
theorem fillableLevels (h : Sim P N b r) (a : ℕ) (s : Side) (limit : ℕ) :
    ∀ (ls : List (ℕ × Level)) (needed : ℕ), (∀ e ∈ ls, (b.map s.opposite)[e.1]? = some e.2) →
      Book.fillableLevels b a s limit ls needed = .ok (decide (needed ≤ foreignQty a
        ((ls.flatMap (fun e => (r.side s.opposite).filter (fun o => o.price = e.1))).takeWhile
          (fun o => s.crosses limit o.price)))) := by
  intro ls
  induction ls with
  | nil => intro needed _; simp [Book.fillableLevels, foreignQty]
  | cons e ls ih =>
    obtain ⟨p, l⟩ := e
    intro needed hls
    have hl := hls (p, l) (by simp)
    simp only at hl
    obtain ⟨R, hR, hlev, hplain⟩ := h.level_labels hl
    obtain ⟨hne, hhead, -⟩ := hlev
    rw [List.flatMap_cons, fillableLevels_cons]
    by_cases hx : s.crosses limit p
    · -- the whole level crosses
      have hall : ∀ o ∈ (r.side s.opposite).filter (fun o => o.price = p), decide (s.crosses limit o.price) = true := by
        intro o ho
        have hp : o.price = p := by simpa using (List.mem_filter.1 ho).2
        rw [hp]
        simpa using hx
      have hlen := hR.levelOf_length_le s.opposite p
      obtain ⟨hit, needed', he, h1, h2⟩ := hR.levelForeignQty a (levelOf (R s.opposite) p) [] _ needed rfl hlen
      rw [hplain] at h1 h2
      rw [List.takeWhile_append_of_pos hall, foreignQty_append, if_pos hx, hhead, he, Except.bind]
      cases hit with
      | true =>
        have := h1 rfl
        rw [if_pos rfl, decide_eq_true (by omega)]
      | false =>
        have := h2 rfl
        rw [if_neg (by simp), ih needed' (fun e he => hls e (List.mem_cons_of_mem _ he))]
        congr 2
        rw [eq_iff_iff]
        omega
    · -- the first order of the level does not cross
      have hnil : (((r.side s.opposite).filter (fun o => o.price = p)) ++
          ls.flatMap (fun e => (r.side s.opposite).filter (fun o => o.price = e.1))).takeWhile
            (fun o => s.crosses limit o.price) = [] := by
        cases hc : (r.side s.opposite).filter (fun o => o.price = p) with
        | nil =>
          rw [hc] at hplain
          exact absurd (List.map_eq_nil_iff.1 hplain) hne
        | cons o l' =>
          have ho : o ∈ (r.side s.opposite).filter (fun o => o.price = p) := by rw [hc]; simp
          have hp : o.price = p := by simpa using (List.mem_filter.1 ho).2
          rw [List.cons_append, List.takeWhile_cons, if_neg (by rw [hp]; simpa using hx)]
      rw [hnil, if_neg hx]
      simp [foreignQty]

/-- **The FOK check compares with the foreign crossing depth.** -/
theorem isFillable (h : Sim P N b r) (a : ℕ) (s : Side) (limit q : ℕ) :
    b.isFillable a s limit q = .ok (decide (q ≤ r.foreignDepth a s limit)) := by
  have hls : b.isFillable a s limit q = Book.fillableLevels b a s limit (levelsBestFirst b s.opposite) q := by
    cases s <;> rfl
  have hflat : (levelsBestFirst b s.opposite).flatMap
      (fun e => (r.side s.opposite).filter (fun o => o.price = e.1)) = r.side s.opposite := by
    have he := h.side_eq s.opposite
    rw [← levelsBestFirst_fst, List.flatMap_map] at he
    exact he
  rw [hls, h.fillableLevels a s limit _ q (fun e he => mem_levelsBestFirst he), hflat]
  rfl

/-! ### Snapshots -/

/-- The levels of a side as `snapshot` visits them, ascending. -/
def levelsAscending (b : Book) : Side → List (ℕ × Level)
  | .buy => b.bids.toList
  | .sell => b.asks.toList

theorem mem_levelsAscending {e : ℕ × Level} (he : e ∈ levelsAscending b s) : (b.map s)[e.1]? = some e.2 := by
  cases s <;> exact Std.ExtTreeMap.mem_toList_iff_getElem?_eq_some.1 he

theorem levelsAscending_fst (h : Sim P N b r) (s : Side) : (levelsAscending b s).map Prod.fst = r.prices s := by
  cases s with
  | buy =>
    have he : b.bids.keys.reverse = (r.bids.map Order.price).dedup := h.prices_eq .buy
    simp only [levelsAscending, Ref.prices, Std.ExtTreeMap.map_fst_toList_eq_keys]
    rw [← he, List.reverse_reverse]
  | sell =>
    have he : b.asks.keys = (r.asks.map Order.price).dedup := h.prices_eq .sell
    simp only [levelsAscending, Ref.prices, Std.ExtTreeMap.map_fst_toList_eq_keys]
    exact he

/-- A side without an order at price zero has levels with prices alone. -/
theorem level_priced (h : Sim P N b r) (hs : ¬ ∃ o ∈ r.side s, o.price = 0) :
    ∀ e ∈ levelsAscending b s, (b.map s)[e.1]? = some e.2 ∧ e.1 ≠ 0 := by
  intro e he
  refine ⟨mem_levelsAscending he, fun hp => hs ?_⟩
  have hm : e.1 ∈ b.map s := by
    rw [← Std.ExtTreeMap.isSome_getElem?_iff_mem, mem_levelsAscending he]
    rfl
  obtain ⟨o, ho, hpo⟩ := (h.mem_map_iff s e.1).1 hm
  exact ⟨o, ho, hpo.trans hp⟩

/-- **Walking a level passes all its checks** and visits the level's slots. -/
theorem walkLevel (h : Sim P N b r) {p : ℕ} {l : Level} (hl : (b.map s)[p]? = some l) (hp : p ≠ 0) :
    ∃ slots, b.walkLevel P s p l = .ok slots ∧
      slots.map (fun x => (b.arena.get x).map Node.order) =
        ((r.side s).filter (fun o => o.price = p)).map some := by
  obtain ⟨R, hR, hlev, hplain⟩ := h.level_labels hl
  obtain ⟨hne, hhead, htail, hcount, htotal⟩ := hlev
  have hlen := hR.levelOf_length_le s p
  obtain ⟨total, he, hv⟩ := hR.walkLoop hp (levelOf (R s) p) [] _ 0 rfl hlen P.u64.zero
    (by rw [List.nil_append, htotal]; rfl)
  rw [List.nil_append, htotal] at hv
  refine ⟨chainOf (R s) p, ?_, ?_⟩
  · have h1 : ∀ msg, check ((chainOf (R s) p).getLast? = l.tail) msg = .ok () := fun msg => if_pos htail.symm
    have h2 : ∀ msg, check ((chainOf (R s) p).length = l.count) msg = .ok () := fun msg =>
      if_pos (by unfold chainOf; rw [List.length_map, hcount])
    have h3 : ∀ msg, check (total = l.totalQty) msg = .ok () := fun msg => if_pos (Option.some.inj hv).symm
    simp only [List.map_nil, List.getLast?_nil] at he
    unfold Book.walkLevel
    rw [hhead, he]
    simp only [bind, Except.bind, h1, h2, h3, pure, Except.pure]
  · rw [← hplain]
    unfold chainOf plain
    rw [List.map_map, List.map_map]
    apply List.map_congr_left
    rintro ⟨x, o⟩ he
    obtain ⟨n, hn, -, hno⟩ := (hR.live s x o).1 (mem_levelOf.1 he).1
    simp [hn, hno]

theorem accountsSeen {slots : List ℕ} {os : List Order} (order : List ℕ)
    (hs : slots.map (fun x => (b.arena.get x).map Node.order) = os.map some) :
    Book.accountsSeen b.arena slots order = .ok (Ref.firstSeen order (os.map Order.account)) := by
  induction slots generalizing os order with
  | nil =>
    have : os = [] := by simpa using hs.symm
    rw [this]
    rfl
  | cons x slots ih =>
    cases os with
    | nil => simp at hs
    | cons o os =>
      simp only [List.map_cons, List.cons.injEq, Option.map_eq_some_iff] at hs
      obtain ⟨⟨n, hn, rfl⟩, hs⟩ := hs
      simp only [Book.accountsSeen, hn, expect_some, bind, Except.bind, List.map_cons, Ref.firstSeen]
      exact ih _ hs

theorem firstSeen_append (seen l l' : List ℕ) :
    Ref.firstSeen seen (l ++ l') = Ref.firstSeen (Ref.firstSeen seen l) l' := by
  induction l generalizing seen with
  | nil => rfl
  | cons a l ih => simp only [List.cons_append, Ref.firstSeen, ih]

theorem mem_firstSeen {seen l : List ℕ} {a : ℕ} : a ∈ Ref.firstSeen seen l ↔ a ∈ seen ∨ a ∈ l := by
  induction l generalizing seen with
  | nil => simp [Ref.firstSeen]
  | cons x l ih =>
    rw [Ref.firstSeen, ih, List.mem_cons]
    by_cases hx : x ∈ seen
    · rw [if_pos hx]
      constructor
      · rintro (h | h)
        · exact Or.inl h
        · exact Or.inr (Or.inr h)
      · rintro (h | rfl | h)
        · exact Or.inl h
        · exact Or.inl hx
        · exact Or.inr h
    · rw [if_neg hx, List.mem_append, List.mem_singleton]
      tauto

/-- The level section of a snapshot. -/
theorem snapshotLevels (h : Sim P N b r) (s : Side) :
    ∀ (ls : List (ℕ × Level)) (order : List ℕ), (∀ e ∈ ls, (b.map s)[e.1]? = some e.2 ∧ e.1 ≠ 0) →
      b.snapshotLevels P s ls order = .ok
        (Ref.firstSeen order (((ls.map Prod.fst).flatMap
          (fun p => (r.side s).filter (fun o => o.price = p))).map Order.account),
         (ls.map Prod.fst).map (fun p => .snapshotLevel s p (Ref.stored P.u64 (qtyAt (r.side s) p))
          ((r.side s).filter (fun o => o.price = p)).length)) := by
  intro ls
  induction ls with
  | nil => intro order _; rfl
  | cons e ls ih =>
    obtain ⟨p, l⟩ := e
    intro order hls
    obtain ⟨hl, hp⟩ := hls (p, l) (by simp)
    simp only at hl hp
    obtain ⟨slots, hw, hs⟩ := h.walkLevel hl hp
    obtain ⟨R, hR, hlev, hplain⟩ := h.level_labels hl
    have hcount : l.count = ((r.side s).filter (fun o => o.price = p)).length := by
      rw [hlev.2.2.2.1, ← hplain]
      unfold plain
      rw [List.length_map]
    have htotal : Ref.stored P.u64 (qtyAt (r.side s) p) = l.totalQty := by
      unfold Ref.stored
      rw [h.totalQty hl]
      rfl
    have hrec := ih (Ref.firstSeen order (((r.side s).filter (fun o => o.price = p)).map Order.account))
      (fun e he => hls e (List.mem_cons_of_mem _ he))
    simp only [Book.snapshotLevels, hw, accountsSeen order hs, hrec, bind, Except.bind, pure, Except.pure,
      List.map_cons, List.flatMap_cons, List.map_append, firstSeen_append, htotal, ← hcount]

/-- The account section of a snapshot. -/
theorem snapshotAccounts (h : Sim P N b r) (order : List ℕ) (ho : ∀ a ∈ order, ∃ o ∈ r.orders, o.account = a) :
    b.snapshotAccounts order = .ok (order.map (fun a =>
      .snapshotAccount a (r.slots a).length (Ref.stored P.u128 (r.notional a)))) := by
  induction order with
  | nil => rfl
  | cons a order ih =>
    obtain ⟨o, hm, ha⟩ := ho a (by simp)
    have hne : r.slots a ≠ [] := by
      have := (h.wf.slots_mem a o.id).2 ⟨o, hm, by rw [← ha]; rfl⟩
      exact List.ne_nil_of_mem this
    cases he : b.accounts.lookup a with
    | none =>
      rw [← h.slotsOf] at hne
      simp [Book.slotsOf, he] at hne
    | some e =>
      have hcount := h.openOrderCount a
      have hnot := h.notional a
      simp only [Book.accountOpenOrderCount, he, Option.map_some, Option.getD_some] at hcount
      simp only [Book.accountNotional, he, Option.map_some, Option.getD_some] at hnot
      have hst : Ref.stored P.u128 (r.notional a) = e.notional := by
        unfold Ref.stored
        rw [hnot]
        rfl
      simp only [Book.snapshotAccounts, he, expect_some, ih (fun a ha => ho a (List.mem_cons_of_mem _ ha)),
        bind, Except.bind, pure, Except.pure, List.map_cons, hcount, hst]

/-- **A snapshot reports the reference state**, unless a zero price rests. -/
theorem snapshot (h : Sim P N b r) (hz : ∀ o ∈ r.orders, o.price ≠ 0) : b.snapshot P = .ok (r.snapshot P) := by
  have hls : ∀ s, ∀ e ∈ levelsAscending b s, (b.map s)[e.1]? = some e.2 ∧ e.1 ≠ 0 :=
    fun s => h.level_priced fun ⟨o, ho, hp⟩ => hz o (r.side_sub_orders s o ho) hp
  have hbuy := h.snapshotLevels .buy (levelsAscending b .buy) [] (hls .buy)
  have hsell := h.snapshotLevels .sell (levelsAscending b .sell)
    (Ref.firstSeen [] ((r.snapshotOrders .buy).map Order.account)) (hls .sell)
  rw [h.levelsAscending_fst] at hbuy hsell
  have hacc := h.snapshotAccounts (Ref.firstSeen [] ((r.snapshotOrders .buy ++ r.snapshotOrders .sell).map
    Order.account)) (by
      intro a ha
      rw [mem_firstSeen] at ha
      obtain ⟨o, ho, rfl⟩ := List.mem_map.1 (ha.resolve_left (by simp))
      have hmem : ∀ s, o ∈ r.snapshotOrders s → o ∈ r.orders := by
        intro s hs
        obtain ⟨p, -, hp⟩ := List.mem_flatMap.1 hs
        exact r.side_sub_orders s o (List.mem_filter.1 hp).1
      rcases List.mem_append.1 ho with ho | ho
      · exact ⟨o, hmem _ ho, rfl⟩
      · exact ⟨o, hmem _ ho, rfl⟩)
  rw [List.map_append, firstSeen_append] at hacc
  have hbuy' : b.snapshotLevels P .buy b.bids.toList [] =
    .ok (Ref.firstSeen [] ((r.snapshotOrders .buy).map Order.account), r.snapshotLevels P .buy) := hbuy
  have hsell' : b.snapshotLevels P .sell b.asks.toList (Ref.firstSeen [] ((r.snapshotOrders .buy).map Order.account)) =
    .ok (Ref.firstSeen (Ref.firstSeen [] ((r.snapshotOrders .buy).map Order.account))
      ((r.snapshotOrders .sell).map Order.account), r.snapshotLevels P .sell) := hsell
  unfold Book.snapshot Ref.snapshot
  simp only [hbuy', hsell', hacc, h.topOfBook, h.lastTrade, bind, Except.bind, pure, Except.pure, List.map_append,
    firstSeen_append]
  simp [Ref.snapshotLevels]

/-! ### A zero price in the book -/

/-- What `walk_level` panics with on a zero price. -/
def zeroPricePanic : Panic := .assertion "resting node has zero price"

/-- The walk of a level at price zero stops at its first node. -/
theorem walkLevel_zero (h : Sim P N b r) {l : Level} (hl : (b.map s)[0]? = some l) :
    b.walkLevel P s 0 l = .error zeroPricePanic := by
  obtain ⟨R, hR, ⟨hne, hhead, -⟩, -⟩ := h.level_labels hl
  cases hc : levelOf (R s) 0 with
  | nil => exact absurd hc hne
  | cons e post =>
    obtain ⟨x, o⟩ := e
    obtain ⟨n, hn, hns, hno, hnp, hprev, -⟩ := hR.node_at (show levelOf (R s) 0 = [] ++ (x, o) :: post from hc)
    have hqty : n.qty ≠ 0 := by
      have he : (x, o) ∈ levelOf (R s) 0 := by rw [hc]; simp
      have := hR.pos s _ (mem_levelOf.1 he).1
      rw [← hno] at this
      exact this.ne'
    have h1 : ∀ msg, check (n.prev = none) msg = .ok () := fun msg => if_pos hprev
    have h2 : ∀ msg, check (n.price = 0) msg = .ok () := fun msg => if_pos hnp
    have h3 : ∀ msg, check (n.side = s) msg = .ok () := fun msg => if_pos hns
    have h4 : ∀ msg, check (n.qty ≠ 0) msg = .ok () := fun msg => if_pos hqty
    have h5 : ∀ msg, check (n.price ≠ 0) msg = .error (.assertion msg) := fun msg => if_neg (by simp [hnp])
    unfold Book.walkLevel
    rw [hhead, hc]
    simp only [List.map_cons, List.head?_cons, Book.walkLoop, hn, expect_some, bind, Except.bind, h1, h2, h3, h4, h5]
    rfl

theorem snapshotLevels_zero (h : Sim P N b r) (s : Side) :
    ∀ (ls : List (ℕ × Level)) (order : List ℕ), (∀ e ∈ ls, (b.map s)[e.1]? = some e.2) → (∃ e ∈ ls, e.1 = 0) →
      b.snapshotLevels P s ls order = .error zeroPricePanic := by
  intro ls
  induction ls with
  | nil => rintro order _ ⟨e, he, -⟩; simp at he
  | cons e ls ih =>
    obtain ⟨p, l⟩ := e
    intro order hls hex
    have hl := hls (p, l) (by simp)
    simp only at hl
    by_cases hp : p = 0
    · subst hp
      simp only [Book.snapshotLevels, h.walkLevel_zero hl, bind, Except.bind]
    · -- an earlier level walks to its end
      obtain ⟨slots, hw, hs⟩ := h.walkLevel hl hp
      obtain ⟨e, he, hz⟩ := hex
      have he' : e ∈ ls := (List.mem_cons.1 he).resolve_left (fun hh => hp (by rw [hh] at hz; exact hz))
      have hrec := ih (Ref.firstSeen order (((r.side s).filter (fun o => o.price = p)).map Order.account))
        (fun e he => hls e (List.mem_cons_of_mem _ he)) ⟨e, he', hz⟩
      simp only [Book.snapshotLevels, hw, accountsSeen order hs, hrec, bind, Except.bind]

/-- A side with an order at price zero has a level there. -/
theorem exists_level_zero (h : Sim P N b r) (hs : ∃ o ∈ r.side s, o.price = 0) : ∃ e ∈ levelsAscending b s, e.1 = 0 := by
  obtain ⟨o, ho, hp⟩ := hs
  obtain ⟨l, hl⟩ := h.level_some ho
  rw [hp] at hl
  refine ⟨(0, l), ?_, rfl⟩
  cases s <;> exact Std.ExtTreeMap.mem_toList_iff_getElem?_eq_some.2 hl

/-- **With a zero price in the book, a snapshot panics.** -/
theorem snapshot_zero (h : Sim P N b r) {o : Order} (ho : o ∈ r.orders) (hz : o.price = 0) :
    b.snapshot P = .error zeroPricePanic := by
  unfold Book.snapshot
  by_cases hbuy : ∃ o ∈ r.side .buy, o.price = 0
  · have := h.snapshotLevels_zero .buy (levelsAscending b .buy) [] (fun e he => mem_levelsAscending he)
      (h.exists_level_zero hbuy)
    simp only [levelsAscending] at this
    simp only [this, bind, Except.bind]
  · have hsell : ∃ o ∈ r.side .sell, o.price = 0 := by
      rcases List.mem_append.1 ho with ho | ho
      · exact absurd ⟨o, ho, hz⟩ hbuy
      · exact ⟨o, ho, hz⟩
    have hok := h.snapshotLevels .buy (levelsAscending b .buy) [] (h.level_priced hbuy)
    have hzero := fun order => h.snapshotLevels_zero .sell (levelsAscending b .sell) order
      (fun e he => mem_levelsAscending he) (h.exists_level_zero hsell)
    simp only [levelsAscending] at hok hzero
    simp only [hok, hzero, bind, Except.bind]

end Sim

end MatchingEngine
