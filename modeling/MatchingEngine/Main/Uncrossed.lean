import MatchingEngine.Main.Refinement

/-!
# The book is never crossed

An order rests only after the opposite side has nothing left that crosses its price:
`sweep` ends with quantity left only then (`WF.sweep_exhausted`), and the PostOnly
check lets an order rest only then (`WF.clear_exhausted`). Everything else takes
orders out or lowers quantities.
-/

namespace MatchingEngine

namespace Ref

/-- No order could trade against one of the other side. -/
def Uncrossed (r : Ref) : Prop :=
  ∀ s, ∀ o ∈ r.side s, ∀ o' ∈ r.side s.opposite, ¬ s.crosses o.price o'.price

variable {r r' : Ref} {c : Command} {evs : List Event} {s : Side} {p : ℕ}

/-- Crossing is mutual. -/
theorem crosses_opposite (s : Side) (p p' : ℕ) : s.opposite.crosses p p' ↔ s.crosses p' p := by
  cases s <;> simp [Side.opposite, Side.crosses]

/-- States whose prices are among those of an uncrossed one. -/
theorem Uncrossed.mono (h : r.Uncrossed) (hp : ∀ s, ∀ o ∈ r'.side s, ∃ x ∈ r.side s, x.price = o.price) :
    r'.Uncrossed := by
  intro s o ho o' ho'
  obtain ⟨x, hx, hxp⟩ := hp s o ho
  obtain ⟨x', hx', hxp'⟩ := hp s.opposite o' ho'
  rw [← hxp, ← hxp']
  exact h s x hx x' hx'

/-- With no crossing prefix, nothing crosses: the first order is the best one. -/
theorem WF.not_crosses (h : r.WF) (hnil : r.crossing s p = []) : ∀ o ∈ r.side s.opposite, ¬ s.crosses p o.price := by
  intro o ho hx
  cases hc : r.side s.opposite with
  | nil => rw [hc] at ho; simp at ho
  | cons o' l =>
    apply crossing_eq_nil.1 hnil o' l hc
    refine s.crosses_of_better ?_ hx
    have hsort := h.sorted s.opposite
    rw [hc, List.pairwise_cons] at hsort
    rw [hc] at ho
    rcases List.mem_cons.1 ho with rfl | ho
    · exact s.opposite.better_refl _
    · exact hsort.1 o ho

/-- Resting where nothing crosses. -/
theorem Uncrossed.rest (h : r.Uncrossed) (hw : r.WF) {o : Order} (hnil : r.crossing s o.price = []) :
    (r.rest s o).Uncrossed := by
  have hnew := hw.not_crosses hnil
  have hside : ∀ s' x, x ∈ (r.rest s o).side s' → x ∈ r.side s' ∨ (s' = s ∧ x = o) := by
    intro s' x hx
    rw [rest_side] at hx
    by_cases hs : s' = s
    · rw [if_pos hs, mem_insertBack] at hx
      exact hx.elim (fun he => Or.inr ⟨hs, he⟩) (fun hm => Or.inl (hs ▸ hm))
    · rw [if_neg hs] at hx
      exact Or.inl hx
  intro s' x hx y hy
  rcases hside s' x hx with hx₁ | ⟨rfl, rfl⟩
  · rcases hside s'.opposite y hy with hy₁ | ⟨hs, rfl⟩
    · exact h s' x hx₁ y hy₁
    · -- the new order is on the other side of `x`
      rw [← crosses_opposite, hs]
      apply hnew
      rw [← hs, Side.opposite_opposite]
      exact hx₁
  · rcases hside s'.opposite y hy with hy₁ | ⟨hs, -⟩
    · exact hnew y hy₁
    · exact absurd hs s'.opposite_ne

theorem Uncrossed.restRemainder (h : r.Uncrossed) (hw : r.WF) {a i q : ℕ} (hnil : 0 < q → r.crossing s p = []) :
    (r.restRemainder a i s p q).Uncrossed := by
  unfold Ref.restRemainder
  split
  · rename_i hq
    exact h.rest hw (hnil hq)
  · exact h

theorem Uncrossed.sweep (h : r.Uncrossed) (hw : r.WF) {a i limit q : ℕ} :
    (r.sweep a i s limit q).1.Uncrossed := by
  apply h.mono
  intro s' o ho
  obtain ⟨x, hx, -, hp, -⟩ := hw.sweep_mem ho
  exact ⟨x, hx, hp⟩

theorem Uncrossed.clearOwn (h : r.Uncrossed) (hw : r.WF) {a limit : ℕ} : (r.clearOwn a s limit).Uncrossed :=
  h.mono (fun s' o ho => ⟨o, (hw.clear_sublist s').subset ho, rfl⟩)

theorem Uncrossed.remove (h : r.Uncrossed) (o : Order) : (r.remove s o).Uncrossed :=
  h.mono (fun s' x hx => ⟨x, (r.remove_side_sublist s s' o).subset hx, rfl⟩)

/-- **Every command keeps the book uncrossed.** -/
theorem Did.uncrossed (hd : Did r c r' evs) (hw : r.WF) (h : r.Uncrossed) : r'.Uncrossed := by
  cases hd with
  | idle _ => exact h
  | entered limit rests fresh own =>
    split
    · rename_i hr
      obtain ⟨-, -, rfl⟩ := own hr
      exact (h.sweep hw).restRemainder hw.sweep_wf hw.sweep_exhausted
    · exact h.sweep hw
  | posted fresh clear => exact (h.clearOwn hw).rest hw.clear_wf (hw.clear_exhausted clear)
  | refused fresh => exact h.clearOwn hw
  | @amended a i q s o found pos le =>
    apply h.mono
    intro s' x hx
    have := List.mem_map_of_mem (f := Order.price) hx
    rw [setQty_prices] at this
    exact List.mem_map.1 this
  | requeued found pos changes =>
    have hw₁ := hw.remove (find_some found).1
    exact ((h.remove _).sweep hw₁).restRemainder hw₁.sweep_wf hw₁.sweep_exhausted
  | cancelled found => exact h.remove _
  | emptied =>
    apply h.mono
    intro s' x hx
    rw [hw.massCancel_side] at hx
    exact ⟨x, (List.mem_filter.1 hx).1, rfl⟩

end Ref

/-- Runs over decodable commands keep an uncrossed state. -/
theorem uncrossed_of_run {P : Profile} (hP : P.Total) {cmds : List Command} (hcmds : ∀ c ∈ cmds, c.Decodable)
    {e : Engine} {evss : List (List Event)} (hrun : Engine.new.runFrom P cmds = .ok (e, evss)) :
    ∃ r, Sim P ⊤ e.book r ∧ r.Uncrossed := by
  refine run_inv (C := fun _ c => c.Decodable) (fun e : Engine => ∃ r, Sim P ⊤ e.book r ∧ r.Uncrossed) ?_
    ⟨_, Sim.new P ⊤, ?_⟩ (along_of_forall hcmds) hrun
  · rintro e c e' evs ⟨r, hs, hu⟩ hc ha
    obtain ⟨-, hs'⟩ := hs.applied hP hc ha
    exact ⟨_, hs', (r.did P c).uncrossed hs.wf hu⟩
  · intro s o ho
    cases s <;> simp [Ref.new, Ref.side] at ho

section

variable {P : Profile} {N : ℕ∞} {b : Book} {r : Ref}

/-- In a book that stands for an uncrossed state every bid is below every ask. -/
theorem Sim.bid_lt_ask (h : Sim P N b r) (hu : r.Uncrossed) {x y : ℕ} {n m : Node} (hn : b.arena.get x = some n)
    (hns : n.side = .buy) (hm : b.arena.get y = some m) (hms : m.side = .sell) : n.price < m.price := by
  have h1 := h.node hn
  have h2 := h.node hm
  rw [hns] at h1
  rw [hms] at h2
  have := hu .buy n.order h1 m.order h2
  simpa [Side.crosses, Node.order] using this

theorem Sim.bestBid_lt_bestAsk (h : Sim P N b r) (hu : r.Uncrossed) {bid ask : ℕ} (hb : b.bestBid = some bid)
    (ha : b.bestAsk = some ask) : bid < ask := by
  rw [h.bestBid, Option.map_eq_some_iff] at hb
  rw [h.bestAsk, Option.map_eq_some_iff] at ha
  obtain ⟨o, ho, rfl⟩ := hb
  obtain ⟨o', ho', rfl⟩ := ha
  have := hu .buy o (List.mem_of_head? ho) o' (List.mem_of_head? ho')
  simpa [Side.crosses] using this

end

/-- **The book is never crossed or locked**: after any run over decodable commands every resting bid
is strictly below every resting ask, and so is the best bid below the best ask. -/
theorem book_never_crossed {P : Profile} (hP : P.Total) {cmds : List Command} (hcmds : ∀ c ∈ cmds, c.Decodable)
    {e : Engine} {evss : List (List Event)} (hrun : Engine.new.runFrom P cmds = .ok (e, evss)) :
    (∀ x n y m, e.book.arena.get x = some n → n.side = .buy → e.book.arena.get y = some m → m.side = .sell →
      n.price < m.price) ∧
    ∀ bid ask, e.book.bestBid = some bid → e.book.bestAsk = some ask → bid < ask := by
  obtain ⟨r, hs, hu⟩ := uncrossed_of_run hP hcmds hrun
  constructor
  · intro x n y m hn hns hm hms
    exact hs.bid_lt_ask hu hn hns hm hms
  · intro bid ask hb ha
    exact hs.bestBid_lt_bestAsk hu hb ha

/-- A PostOnly bid clears its own ask, rests, and stays below the foreign ask behind it. -/
theorem book_never_crossed_postOnly :
    ∃ e evss, Engine.new.runFrom .release
        [.newOrder 1 1 .sell 100 5 .limit .gtc 0, .newOrder 2 1 .sell 102 5 .limit .gtc 0,
         .newOrder 1 2 .buy 101 5 .limit .postOnly 0] = .ok (e, evss) ∧
      e.book.bestBid = some 101 ∧ e.book.bestAsk = some 102 ∧
      ∀ bid ask, e.book.bestBid = some bid → e.book.bestAsk = some ask → bid < ask := by
  obtain ⟨e, he, hs⟩ := (Sim.new .release ⊤).run (e := Engine.new) Profile.release_total
    (by simp [Ref.NoZero, Ref.new, Ref.orders])
    (show ∀ c ∈ ([.newOrder 1 1 .sell 100 5 .limit .gtc 0, .newOrder 2 1 .sell 102 5 .limit .gtc 0,
      .newOrder 1 2 .buy 101 5 .limit .postOnly 0] : List Command), c.Nonzero by decide)
  exact ⟨e, _, he, by rw [hs.bestBid]; decide, by rw [hs.bestAsk]; decide,
    (book_never_crossed Profile.release_total (by decide) he).2⟩

end MatchingEngine
