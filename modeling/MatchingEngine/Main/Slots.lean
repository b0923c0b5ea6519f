import MatchingEngine.Core.Points
import MatchingEngine.Proof.Rep

/-!
# The arena holds no more slots than the orders need

Slots are taken by `rest` and given back by `unlink` alone, and a slot given back is
taken again before the arena grows. So the arena has, at every point a run passes, as
many slots as there have ever been live nodes at one time. No argument of an operation
and no arithmetic matters for this, so it holds under every profile, up to a panic
if there is one.

* `Book.Filed`: the order index files the live nodes, each under its key.
* `Grows`: what happens to the arena from one point to the next.
* `restTraced_path`, `unlinkTraced_path`: the two calls that add and remove.
* `arena_never_leaks`: the number of slots is the greatest number of live nodes so far.
-/

namespace MatchingEngine

open Traced (Path)

/-- The order index files the live nodes, each under its key. -/
def Book.Filed (b : Book) : Prop :=
  ∀ k x, b.orderIndex.lookup k = some x ↔ (b.arena.get x).map Node.key = some k

namespace Book.Filed

variable {b b' : Book} {x : ℕ} {n : Node}

theorem new : Book.new.Filed := by
  intro k x
  simp [Book.new]

/-- The entry of a live node. -/
theorem lookup (h : b.Filed) (hn : b.arena.get x = some n) : b.orderIndex.lookup n.key = some x := by
  rw [h, hn, Option.map_some]

/-- One more node, under a new key. -/
theorem insert (h : b.Filed) (hk : b.orderIndex.lookup n.key = none) (hx : b.arena.get x = none)
    (hindex : b'.orderIndex = b.orderIndex.insert n.key x)
    (hget : ∀ y, (b'.arena.get y).map Node.key = if y = x then some n.key else (b.arena.get y).map Node.key) :
    b'.Filed := by
  intro k y
  rw [hindex, hget y]
  by_cases hkn : k = n.key
  · rw [hkn, Finmap.lookup_insert]
    split
    · next hy => exact iff_of_true (by rw [hy]) rfl
    · next hy =>
      -- the key was not in use, so no other node has it
      rw [← h, hk]
      exact iff_of_false (fun e => hy (Option.some.inj e).symm) (by simp)
  · rw [Finmap.lookup_insert_of_ne _ hkn, h]
    split
    · next hy =>
      rw [hy, hx]
      exact iff_of_false (by simp) (fun e => hkn (Option.some.inj e).symm)
    · rfl

/-- One node less. -/
theorem erase (h : b.Filed) (hn : b.arena.get x = some n) (hindex : b'.orderIndex = b.orderIndex.erase n.key)
    (hget : ∀ y, (b'.arena.get y).map Node.key = if y = x then none else (b.arena.get y).map Node.key) : b'.Filed := by
  intro k y
  rw [hindex, hget y]
  by_cases hkn : k = n.key
  · rw [hkn, Finmap.lookup_erase]
    split
    · exact iff_of_false (by simp) (by simp)
    · next hy =>
      rw [← h, h.lookup hn]
      exact iff_of_false (by simp) (fun e => hy (Option.some.inj e).symm)
  · rw [Finmap.lookup_erase_ne hkn, h]
    split
    · next hy =>
      rw [hy, hn]
      exact iff_of_false (fun e => hkn (Option.some.inj e).symm) (by simp)
    · rfl

/-- The same nodes, as far as the index is concerned. -/
theorem congr (h : b.Filed) (hindex : b'.orderIndex = b.orderIndex) (hs : b.arena.SameOrders b'.arena) : b'.Filed := by
  intro k x
  rw [hindex, hs.key, h]

/-- As many entries as live nodes. -/
theorem card (h : b.Filed) : b.orderIndex.entries.card = b.arena.liveSlots.card := by
  have hkeys : b.orderIndex.entries.card = b.orderIndex.keys.card := (Multiset.card_map _ _).symm
  rw [hkeys]
  symm
  refine Finset.card_bij (fun x _ => ((b.arena.get x).map Node.key).getD (0, 0)) ?_ ?_ ?_
  · intro x hx
    obtain ⟨n, hn⟩ := Arena.mem_liveSlots.1 hx
    rw [Finmap.mem_keys, hn, Option.map_some, Option.getD_some, ← Finmap.lookup_isSome, h.lookup hn]
    rfl
  · intro x hx y hy he
    obtain ⟨n, hn⟩ := Arena.mem_liveSlots.1 hx
    obtain ⟨m, hm⟩ := Arena.mem_liveSlots.1 hy
    rw [hn, hm, Option.map_some, Option.map_some, Option.getD_some, Option.getD_some] at he
    have hxy := h.lookup hn
    rw [he, h.lookup hm] at hxy
    exact (Option.some.inj hxy).symm
  · intro k hk
    rw [Finmap.mem_keys, ← Finmap.lookup_isSome] at hk
    obtain ⟨x, hx⟩ := Option.isSome_iff_exists.1 hk
    obtain ⟨n, hn, hnk⟩ := Option.map_eq_some_iff.1 ((h k x).1 hx)
    refine ⟨x, Arena.mem_liveSlots.2 ⟨n, hn⟩, ?_⟩
    rw [hn, Option.map_some, Option.getD_some, hnk]

end Book.Filed

/-- What is right at every point: the free list, and between calls the index. -/
structure Sound (c : Point) : Prop where
  free : c.arena.FreeOK
  index : ∀ b, c = .between b → b.Filed

/-- From one point to the next, the arena has the slots it had or as many as there are live nodes,
whichever is more. -/
structure Grows (c d : Point) : Prop where
  sound : Sound d
  slots : d.arena.slots.length = max c.arena.slots.length d.arena.liveSlots.card

/-- Looked at in `c`, the book is in order. -/
structure Stands (b : Book) (c : Point) : Prop where
  arena : c.arena = b.arena
  free : b.arena.FreeOK
  filed : b.Filed

namespace Grows

variable {c : Point} {a : Arena} {b : Book}

/-- A step inside a call that keeps the slots. -/
theorem within (hfree : a.FreeOK) (hlen : a.slots.length = c.arena.slots.length) : Grows c (.within a) := by
  refine ⟨⟨hfree, fun b hb => by cases hb⟩, ?_⟩
  have hle := a.card_live_le
  change a.slots.length = max c.arena.slots.length a.liveSlots.card
  omega

/-- The end of a call. -/
theorem between (h : Stands b c) : Grows c (.between b) := by
  refine ⟨⟨h.free, fun b' hb => ?_⟩, ?_⟩
  · cases hb
    exact h.filed
  · have hle := b.arena.card_live_le
    change b.arena.slots.length = max c.arena.slots.length b.arena.liveSlots.card
    rw [h.arena]
    omega

end Grows

/-- No order has come. -/
def Book.Sheds (b b' : Book) : Prop := ∀ k, b.orderIndex.lookup k = none → b'.orderIndex.lookup k = none

namespace Book.Sheds

variable {b b' b'' : Book}

theorem refl (b : Book) : b.Sheds b := fun _ hk => hk

theorem trans (h : b.Sheds b') (h' : b'.Sheds b'') : b.Sheds b'' := fun k hk => h' k (h k hk)

theorem of_erase {k : Key} (h : b'.orderIndex = b.orderIndex.erase k) : b.Sheds b' := by
  intro k' hk'
  rw [h]
  by_cases hkk : k' = k
  · rw [hkk, Finmap.lookup_erase]
  · rw [Finmap.lookup_erase_ne hkk, hk']

end Book.Sheds

namespace Stands

variable {b : Book} {c : Point}

theorem between (h : Stands b c) : Stands b (.between b) := ⟨rfl, h.free, h.filed⟩

end Stands

namespace Book

variable {P : Profile} {b b' : Book} {c d : Point} {a i : ℕ} {s : Side} {p q : ℕ}

/-! ### The four calls that write to the arena -/

/-- The end of a call. -/
theorem path_between {Q : Book → Prop} (h : Stands b c) (hQ : Q b) :
    Path Grows c (do Traced.point (.between b); pure b : Watched Book) fun b d => Stands b d ∧ Q b :=
  .point_bind (.between h) (.pure ⟨h.between, hQ⟩)

/-- The end of a call that has changed orders without touching their keys. -/
theorem path_same (h : Stands b c) (hs : b.arena.SameOrders d.arena) (harena : d.arena = b'.arena)
    (hindex : b'.orderIndex = b.orderIndex) :
    Path Grows d (do Traced.point (.between b'); pure b' : Watched Book) fun b' d => Stands b' d ∧ b.Sheds b' := by
  refine path_between ⟨harena, harena ▸ hs.freeOK h.free, h.filed.congr hindex (harena ▸ hs)⟩ fun k hk => ?_
  rw [hindex, hk]

theorem reduceRestingQtyTraced_path (h : Stands b c) (x : ℕ) :
    Path Grows c (b.reduceRestingQtyTraced P x s p q) fun b' d => Stands b' d ∧ b.Sheds b' := by
  refine .lift_bind fun node _ => .lift_bind fun arena harena => ?_
  have hsame := Arena.update_same harena (fun _ => rfl)
  refine .point_bind (.within (hsame.freeOK h.free) (by rw [hsame.length, h.arena])) ?_
  refine .lift_bind fun level _ => .lift_bind fun totalQty _ => .lift_bind fun entry _ => ?_
  refine .lift_bind fun notional _ => ?_
  exact path_same h hsame (by simp [Point.arena]) (by simp)

theorem amendInPlaceTraced_path (h : Stands b c) (x : ℕ) (node : Node) :
    Path Grows c (b.amendInPlaceTraced P x node q) fun b' d => Stands b' d ∧ b.Sheds b' := by
  refine .lift_bind fun arena harena => ?_
  have hsame := Arena.update_same harena (fun _ => rfl)
  refine .point_bind (.within (hsame.freeOK h.free) (by rw [hsame.length, h.arena])) ?_
  refine .lift_bind fun level _ => .lift_bind fun totalQty _ => .lift_bind fun totalQty _ => ?_
  refine .lift_bind fun entry _ => .lift_bind fun notional _ => .lift_bind fun notional _ => ?_
  exact path_same h hsame (by simp [Point.arena]) (by simp)

/-- **Removal**: one slot is given back, and one entry leaves the index. -/
theorem unlinkTraced_path (h : Stands b c) (x : ℕ) :
    Path Grows c (b.unlinkTraced P x) fun b' d => Stands b' d ∧
      ∃ n, b.arena.get x = some n ∧ b'.orderIndex = b.orderIndex.erase n.key := by
  refine .lift_bind fun n hexpect => ?_
  have hn := expect_ok hexpect
  -- three links, then the slot: the first three keep every order where it is
  refine .lift_bind fun a₁ h₁ => ?_
  have s₁ := Arena.updateLink_same h₁ (fun _ => rfl)
  refine .point_bind (.within (s₁.freeOK h.free) (by rw [s₁.length, h.arena])) ?_
  refine .lift_bind fun a₂ h₂ => ?_
  have s₂ := s₁.trans (Arena.updateLink_same h₂ (fun _ => rfl))
  refine .point_bind (.within (s₂.freeOK h.free) (s₂.length.trans s₁.length.symm)) ?_
  refine .lift_bind fun level _ => .lift_bind fun totalQty _ => .lift_bind fun entry _ => ?_
  refine .lift_bind fun removed _ => .lift_bind fun _ _ => .lift_bind fun notional _ => ?_
  refine .lift_bind fun a₃ h₃ => ?_
  have s₃ := s₂.trans (Arena.updateLink_same h₃ (fun _ => rfl))
  refine .point_bind (.within (s₃.freeOK h.free) (s₃.length.trans s₂.length.symm)) ?_
  refine .lift_bind fun a₄ h₄ => ?_
  obtain ⟨m, hm, -⟩ : ∃ m, a₃.get x = some m ∧ m.key = n.key := by
    have hk := s₃.key x
    rw [hn, Option.map_some, Option.map_eq_some_iff] at hk
    exact hk
  obtain ⟨f₄, l₄, g₄⟩ := Arena.freeSlot_keeps (s₃.freeOK h.free) hm h₄
  refine .point_bind (.within f₄ l₄) ?_
  refine path_between ⟨by simp [Point.arena], by simpa using f₄, ?_⟩ ⟨n, hn, by simp [Node.key]⟩
  refine h.filed.erase hn (by simp [Node.key]) fun y => ?_
  simp only [setMap_arena]
  rw [g₄, apply_ite (Option.map Node.key), s₃.key]
  rfl

/-- The end of a call that has put node `n` into slot `x` and then changed links only. -/
theorem path_inserted {a₁ a₂ a₃ : Arena} {x : ℕ} {n : Node} (h : Stands b c) (hx : b.arena.get x = none)
    (f₁ : a₁.FreeOK) (g₁ : ∀ y, a₁.get y = if y = x then some n else b.arena.get y)
    (hk : b.orderIndex.lookup n.key = none) (s₂ : a₁.SameOrders a₂) (s₃ : a₂.SameOrders a₃)
    (harena : b'.arena = a₃) (hindex : b'.orderIndex = b.orderIndex.insert n.key x) :
    Path Grows (.within a₂) (do Traced.point (.within a₃); Traced.point (.between b'); pure b' : Watched Book)
      fun b' d => Stands b' d := by
  have hsame := s₂.trans s₃
  have hfree := hsame.freeOK f₁
  have hfiled : b'.Filed := by
    refine h.filed.insert hk hx hindex fun y => ?_
    rw [harena, hsame.key, g₁, apply_ite (Option.map Node.key)]
    rfl
  have hend : Stands b' (.within a₃) := ⟨harena.symm, harena ▸ hfree, hfiled⟩
  exact .point_bind (.within hfree s₃.length) (.point_bind (.between hend) (.pure hend.between))

/-- **Insertion**: one slot is taken, and one entry joins the index. -/
theorem restTraced_path (h : Stands b c) (hk : b.orderIndex.lookup (a, i) = none) :
    Path Grows c (b.restTraced P a i s p q) fun b' d => Stands b' d := by
  refine .lift_bind fun ⟨a₁, x⟩ h₁ => ?_
  obtain ⟨f₁, l₁, hx, g₁⟩ := Arena.insert_grows h.free h₁
  refine .point_bind ⟨⟨f₁, fun b hb => by cases hb⟩, by rw [h.arena]; exact l₁⟩ ?_
  refine .lift_bind fun entry _ => .lift_bind fun notional _ => .lift_bind fun totalQty _ => ?_
  refine .lift_bind fun a₂ h₂ => ?_
  have s₂ := Arena.updateLink_same h₂ (fun _ => rfl)
  refine .point_bind (.within (s₂.freeOK f₁) s₂.length) ?_
  refine .ite (fun _ => ?_) (fun _ => ?_)
  · refine .lift_bind fun a₃ h₃ => ?_
    obtain rfl := Except.ok.inj h₃
    exact path_inserted h hx f₁ g₁ hk s₂ (.refl _) (by simp) (by simp [Node.key])
  · refine .lift_bind fun a₃ h₃ => ?_
    have s₃ := Arena.update_same h₃ (fun _ => rfl)
    exact path_inserted h hx f₁ g₁ hk s₂ s₃ (by simp) (by simp [Node.key])

/-! ### The loops -/

/-- A removal brings no order. -/
theorem unlinkTraced_sheds (h : Stands b c) (x : ℕ) :
    Path Grows c (b.unlinkTraced P x) fun b' d => Stands b' d ∧ b.Sheds b' :=
  (unlinkTraced_path h x).mono fun _ _ ⟨hb, _, _, hindex⟩ => ⟨hb, .of_erase hindex⟩

theorem sweepLoopTraced_path (fuel : ℕ) : ∀ (lp : Option ℕ) (b : Book) (q : ℕ) (c : Point), Stands b c →
    Path Grows c (sweepLoopTraced P a i s p fuel lp b q) fun r d => Stands r.1 d ∧ b.Sheds r.1 := by
  induction fuel with
  | zero => exact fun lp b q c h => .error _
  | succ fuel ih =>
    intro lp b q c h
    cases lp with
    | none =>
      rw [sweepLoopTraced]
      refine .ite (fun _ => ?_) (fun _ => .pure ⟨h, .refl b⟩)
      cases b.crossingPrice s p with
      | none => exact .pure ⟨h, .refl b⟩
      | some lp => exact ih _ _ _ _ h
    | some lp =>
      rw [sweepLoopTraced]
      refine .ite (fun _ => .pure ⟨h, .refl b⟩) (fun _ => ?_)
      cases b.levelHead s.opposite lp with
      | none => exact ih _ _ _ _ h
      | some x =>
        refine .lift_bind fun maker _ => .ite (fun _ => ?_) (fun _ => ?_)
        · refine .bind (unlinkTraced_sheds h x) fun b' d hb' => ?_
          exact .bind (ih _ b' _ d hb'.1) fun r d' hr => .pure ⟨hr.1, hb'.2.trans hr.2⟩
        · have hb₁ : Stands { b with lastTrade := some maker.price } c := ⟨h.arena, h.free, h.filed⟩
          refine .ite (fun _ => ?_) (fun _ => ?_)
          · refine .bind (unlinkTraced_sheds hb₁ x) fun b' d hb' => ?_
            exact .bind (ih _ b' _ d hb'.1) fun r d' hr => .pure ⟨hr.1, hb'.2.trans hr.2⟩
          · refine .bind (reduceRestingQtyTraced_path hb₁ x) fun b' d hb' => ?_
            exact .bind (ih _ b' _ d hb'.1) fun r d' hr => .pure ⟨hr.1, hb'.2.trans hr.2⟩

theorem sweepTraced_path (h : Stands b c) :
    Path Grows c (b.sweepTraced P a i s p q) fun r d => Stands r.1 d ∧ b.Sheds r.1 :=
  sweepLoopTraced_path _ _ _ _ _ h

theorem stpClearLoopTraced_path (fuel : ℕ) : ∀ (b : Book) (c : Point), Stands b c →
    Path Grows c (stpClearLoopTraced P a s p fuel b) fun r d => Stands r.2.1 d ∧ b.Sheds r.2.1 := by
  induction fuel with
  | zero => exact fun b c h => .error _
  | succ fuel ih =>
    intro b c h
    rw [stpClearLoopTraced]
    cases b.crossingPrice s p with
    | none => exact .pure ⟨h, .refl b⟩
    | some lp =>
      dsimp only
      cases b.levelHead s.opposite lp with
      | none => exact ih _ _ h
      | some x =>
        refine .lift_bind fun node _ => .ite (fun _ => ?_) (fun _ => .pure ⟨h, .refl b⟩)
        refine .bind (unlinkTraced_sheds h x) fun b' d hb' => ?_
        exact .bind (ih b' d hb'.1) fun r d' hr => .pure ⟨hr.1, hb'.2.trans hr.2⟩

theorem massCancelLoopTraced_path (slots : List ℕ) : ∀ (b : Book) (c : Point), Stands b c →
    Path Grows c (massCancelLoopTraced P a slots b) fun r d => Stands r.1 d := by
  induction slots with
  | nil => exact fun b c h => .pure h
  | cons slot slots ih =>
    intro b c h
    refine .lift_bind fun node _ => .bind (unlinkTraced_path h slot) fun b' d hb' => ?_
    exact .bind (ih b' d hb'.1) fun r d' hr => .pure hr

/-! ### The operations -/

/-- A new order rests under a key nobody has. -/
theorem unlessDuplicateTraced_path {body : Watched (Book × List Event)} (h : Stands b c)
    (hbody : b.orderIndex.lookup (a, i) = none → Path Grows c body fun r d => Stands r.1 d) :
    Path Grows c (b.unlessDuplicateTraced a i body) fun r d => Stands r.1 d := by
  refine .ite (fun _ => .pure h) (fun hnone => hbody ?_)
  rw [Option.not_isSome_iff_eq_none] at hnone
  exact hnone

theorem submitGtcTraced_path (h : Stands b c) : Path Grows c (b.submitGtcTraced P a i s p q) fun r d => Stands r.1 d := by
  refine .lift_bind fun _ _ => .lift_bind fun _ _ => unlessDuplicateTraced_path h fun hk => ?_
  refine .bind (sweepTraced_path h) fun ⟨b', remaining, evs⟩ d hb' => .ite (fun _ => ?_) (fun _ => .pure hb'.1)
  exact .bind (restTraced_path hb'.1 (hb'.2 _ hk)) fun b'' d' hb'' => .pure hb''

theorem submitIocTraced_path (h : Stands b c) : Path Grows c (b.submitIocTraced P a i s p q) fun r d => Stands r.1 d := by
  refine .lift_bind fun _ _ => .lift_bind fun _ _ => unlessDuplicateTraced_path h fun _ => ?_
  exact .bind (sweepTraced_path h) fun r d hr => .pure hr.1

theorem submitFokTraced_path (h : Stands b c) : Path Grows c (b.submitFokTraced P a i s p q) fun r d => Stands r.1 d := by
  refine .lift_bind fun _ _ => .lift_bind fun _ _ => unlessDuplicateTraced_path h fun _ => ?_
  refine .lift_bind fun fillable _ => .ite (fun _ => ?_) (fun _ => .pure h)
  refine .bind (sweepTraced_path h) fun ⟨b', remaining, evs⟩ d hb' => ?_
  exact .lift_bind fun _ _ => .pure hb'.1

theorem submitMarketTraced_path (h : Stands b c) :
    Path Grows c (b.submitMarketTraced P a i s q) fun r d => Stands r.1 d := by
  refine .lift_bind fun _ _ => unlessDuplicateTraced_path h fun _ => ?_
  exact .bind (sweepTraced_path h) fun r d hr => .pure hr.1

theorem submitPostonlyTraced_path (h : Stands b c) :
    Path Grows c (b.submitPostonlyTraced P a i s p q) fun r d => Stands r.1 d := by
  refine .lift_bind fun _ _ => .lift_bind fun _ _ => unlessDuplicateTraced_path h fun hk => ?_
  refine .bind (stpClearLoopTraced_path _ b c h) fun ⟨crosses, b', evs⟩ d hb' => ?_
  refine .ite (fun _ => .pure hb'.1) (fun _ => ?_)
  exact .bind (restTraced_path hb'.1 (hb'.2 _ hk)) fun b'' d' hb'' => .pure hb''

theorem modifyTraced_path (h : Stands b c) : Path Grows c (b.modifyTraced P a i p q) fun r d => Stands r.1 d := by
  refine .ite (fun _ => .pure h) (fun _ => ?_)
  cases hslot : b.orderIndex.lookup (a, i) with
  | none => exact .pure h
  | some slot =>
    refine .lift_bind fun node _ => .ite (fun _ => ?_) (fun _ => ?_)
    · exact .bind (amendInPlaceTraced_path h slot node) fun b' d hb' => .pure hb'.1
    · refine .bind (unlinkTraced_path h slot) fun b₁ d hb₁ => ?_
      -- the order itself has left the index, so its key is free when the rest of it comes back
      have hk : b₁.orderIndex.lookup (a, i) = none := by
        obtain ⟨-, n, hn, hindex⟩ := hb₁
        have hkey := (h.filed (a, i) slot).1 hslot
        rw [hn, Option.map_some, Option.some.injEq] at hkey
        rw [hindex, hkey, Finmap.lookup_erase]
      refine .bind (sweepTraced_path hb₁.1) fun ⟨b₂, remaining, evs⟩ d hb₂ => ?_
      refine .ite (fun _ => ?_) (fun _ => .pure hb₂.1)
      exact .bind (restTraced_path hb₂.1 (hb₂.2 _ hk)) fun b₃ d hb₃ => .pure hb₃

theorem cancelTraced_path (h : Stands b c) : Path Grows c (b.cancelTraced P a i) fun r d => Stands r.1 d := by
  unfold cancelTraced
  cases b.orderIndex.lookup (a, i) with
  | none => exact .pure h
  | some slot => exact .bind (unlinkTraced_path h slot) fun b' d hb' => .pure hb'.1

theorem massCancelTraced_path (h : Stands b c) : Path Grows c (b.massCancelTraced P a) fun r d => Stands r.1 d := by
  unfold massCancelTraced
  cases b.accounts.lookup a with
  | none => exact .pure h
  | some entry => exact massCancelLoopTraced_path entry.slots _ c ⟨h.arena, h.free, h.filed⟩

end Book

theorem Op.applyTraced_path {P : Profile} {b : Book} {c : Point} (op : Op) (h : Stands b c) :
    Path Grows c (op.applyTraced P b) fun r d => Stands r.1 d := by
  cases op with
  | gtc => exact Book.submitGtcTraced_path h
  | ioc => exact Book.submitIocTraced_path h
  | fok => exact Book.submitFokTraced_path h
  | postOnly => exact Book.submitPostonlyTraced_path h
  | market => exact Book.submitMarketTraced_path h
  | cancel => exact Book.cancelTraced_path h
  | modify => exact Book.modifyTraced_path h
  | massCancel => exact Book.massCancelTraced_path h

/-- After every operation the book stands, and is the point reached. -/
theorem Op.stepTraced_path {P : Profile} {b : Book} {c : Point} (op : Op) (h : Stands b c) :
    Path Grows c (op.stepTraced P b) fun r d => Stands r.1 d ∧ d = .between r.1 := by
  refine .bind (op.applyTraced_path h) fun r d hr => ?_
  exact .point_bind (.between hr) (.pure ⟨hr.between, rfl⟩)

theorem Stands.new : Stands .new (.between .new) := by
  refine ⟨rfl, ⟨List.nodup_nil, fun slot => ?_⟩, .new⟩
  simp [Book.new, Arena.new]

/-- All points of a run from a new book, one growing out of the other. -/
theorem walk_path (P : Profile) (ops : List Op) :
    Path Grows (.between .new) (Traced.walk (Op.stepTraced P) .new ops) fun r d => Stands r.1 d ∧ d = .between r.1 :=
  .walk (fun b d => Stands b d ∧ d = .between b) (fun _ op _ h => op.stepTraced_path h.1) ⟨.new, rfl⟩ ops

theorem Sound.new : Sound (.between .new) := by
  refine ⟨Stands.new.free, fun b hb => ?_⟩
  cases hb
  exact .new

/-- **The arena never leaks slots.** At every point a run passes, inside a command or after it, the
number of slots is the greatest number of live nodes there has been at a point so far. The arena's
own count is the number of live nodes, and between calls the number of orders in the index. The
points are those of the run, and end with the book it ends with if no panic ends it before. -/
theorem arena_never_leaks (P : Profile) (ops : List Op) :
    (Traced.walk (Op.stepTraced P) .new ops).result = run (Op.apply P) .new ops ∧
    (∀ b evss, run (Op.apply P) .new ops = .ok (b, evss) → (pointsOf P ops).getLast? = some (.between b)) ∧
    ∀ pre c post, pointsOf P ops = pre ++ c :: post →
      IsGreatest {n | ∃ d ∈ pre ++ [c], d.arena.liveSlots.card = n} c.arena.slots.length ∧
      c.arena.len = c.arena.liveSlots.card ∧
      ∀ b, c = .between b → b.arena.len = b.orderIndex.entries.card := by
  have hpath := walk_path P ops
  refine ⟨walk_stepTraced_result P .new ops, ?_, ?_⟩
  · intro b evss hrun
    rw [← walk_stepTraced_result] at hrun
    have hlast := (hpath.post _ hrun).2
    rw [List.getLastD_eq_getLast?] at hlast
    unfold pointsOf
    rw [List.getLast?_cons, hlast]
  · intro pre c post hsplit
    have hpeak := isGreatest_of_chain (fun c d (h : Grows c d) => h.slots) rfl hpath.chain hsplit
    have hsound : Sound c := by
      refine hpath.chain.induction Sound _ (fun c d h _ => h.sound) (fun _ => .new) c ?_
      change c ∈ pointsOf P ops
      rw [hsplit]
      exact List.mem_append_right _ List.mem_cons_self
    have hlen := hsound.free.card_live
    refine ⟨hpeak, hlen.symm, ?_⟩
    rintro b rfl
    have hcard := (hsound.index b rfl).card
    exact hlen.symm.trans hcard.symm

/-- Six orders rest one after the other and leave by a cancel, a fill, self-trade prevention and a
mass-cancel, with amends in between, through two slots. -/
def churn : List Op :=
  [.gtc 1 1 .buy 10 5, .gtc 2 1 .buy 11 5, .cancel 1 1, .gtc 3 1 .sell 11 5, .gtc 1 2 .buy 10 4,
    .modify 1 2 12 6, .gtc 2 2 .buy 9 1, .modify 2 2 9 3, .postOnly 1 3 .sell 12 2, .massCancel 2, .gtc 4 1 .buy 8 1]

theorem arena_never_leaks_churn :
    ∃ b evss, run (Op.apply .dev) .new churn = .ok (b, evss) ∧ b.arena.len = 2 ∧ b.orderIndex.entries.card = 2 ∧
      IsGreatest {n | ∃ d ∈ pointsOf .dev churn, d.arena.liveSlots.card = n} 2 := by
  obtain ⟨⟨b, evss⟩, hrun, hslots, hfree⟩ := exists_ok_of_decide (x := run (Op.apply .dev) .new churn)
    (p := fun r => r.1.arena.slots.length = 2 ∧ r.1.arena.len = 2) (by decide +kernel)
  dsimp only at hslots hfree
  obtain ⟨-, hlast, hpoints⟩ := arena_never_leaks .dev churn
  obtain ⟨pre, hpre⟩ := List.getLast?_eq_some_iff.1 (hlast b evss hrun)
  obtain ⟨hpeak, -, hindex⟩ := hpoints pre (.between b) [] hpre
  refine ⟨b, evss, hrun, hfree, (hindex b rfl).symm.trans hfree, ?_⟩
  rw [hpre, ← hslots]
  exact hpeak

end MatchingEngine
