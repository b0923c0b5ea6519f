import MatchingEngine.Lib.Outcome
import MatchingEngine.Proof.Refine

/-!
# The matching loops end

The loops of `sweep` and `stp_clear_crossing_self_orders` make no progress of their own: a
turn that finds no head at the best level goes back and finds the same level again. On every
book a run leaves behind, and on every book the loops themselves pass through, an occupied
level has a live head, each turn takes an order off the opposite side or stops, and no
`expect`, index or `debug_assert!` on the way fails.

* `SweepPasses`, `StpPasses`: the states the loops pass through.
* `Sim.of_sweepPasses`, `Sim.of_stpPasses`: each is a state of a book that represents its orders.
* `sweepLoop_refined`, `stpClearLoop_refined`, `levelForeignQty_refined`: more fuel changes nothing.
* `matching_loops_terminate`: all of it, on every reachable book.
-/

namespace MatchingEngine

namespace Book

variable {P : Profile} {a i : ℕ} {s : Side} {p q : ℕ} {b b₀ : Book}

/-! ### Fuel -/

/-- One more turn allowed changes no result of the sweep. -/
theorem sweepLoop_refined (fuel : ℕ) : ∀ (lp : Option ℕ) (b : Book) (q : ℕ),
    Refined (sweepLoop P a i s p fuel lp b q) (sweepLoop P a i s p (fuel + 1) lp b q) := by
  induction fuel with
  | zero => exact fun lp b q => .error _ _
  | succ fuel ih =>
    intro lp b q
    cases lp with
    | none =>
      rw [sweepLoop, sweepLoop]
      refine .ite ?_ (.refl _)
      cases b.crossingPrice s p with
      | none => exact .refl _
      | some lp => exact ih _ _ _
    | some lp =>
      rw [sweepLoop, sweepLoop]
      refine .ite (.refl _) ?_
      cases b.levelHead s.opposite lp with
      | none => exact ih _ _ _
      | some x =>
        refine .bind (.refl _) fun maker => .ite ?_ ?_
        · exact .bind (.refl _) fun b' => .bind (ih _ _ _) fun _ => .refl _
        · -- filled whole or in part, the loop goes on in the same way
          dsimp only
          refine .ite ?_ ?_
          · exact .bind (.refl _) fun b' => .bind (ih _ _ _) fun _ => .refl _
          · exact .bind (.refl _) fun b' => .bind (ih _ _ _) fun _ => .refl _

theorem stpClearLoop_refined (fuel : ℕ) : ∀ b : Book,
    Refined (stpClearLoop P a s p fuel b) (stpClearLoop P a s p (fuel + 1) b) := by
  induction fuel with
  | zero => exact fun b => .error _ _
  | succ fuel ih =>
    intro b
    rw [stpClearLoop, stpClearLoop]
    cases b.crossingPrice s p with
    | none => exact .refl _
    | some lp =>
      simp only
      cases b.levelHead s.opposite lp with
      | none => exact ih _
      | some x =>
        refine .bind (.refl _) fun node => .ite ?_ (.refl _)
        exact .bind (.refl _) fun b' => .bind (ih _) fun _ => .refl _

theorem levelForeignQty_refined {arena : Arena} (fuel : ℕ) : ∀ (cursor : Option ℕ) (needed : ℕ),
    Refined (levelForeignQty arena a fuel cursor needed) (levelForeignQty arena a (fuel + 1) cursor needed) := by
  induction fuel with
  | zero =>
    intro cursor needed
    cases cursor with
    | none => exact .refl _
    | some x => exact .error _ _
  | succ fuel ih =>
    intro cursor needed
    cases cursor with
    | none => exact .refl _
    | some x =>
      rw [levelForeignQty, levelForeignQty]
      exact .bind (.refl _) fun node => .ite (.ite (.refl _) (ih _ _)) (ih _ _)

/-! ### Turns -/

/-- Every occupied level has a live head. -/
def HeadsLive (b : Book) : Prop :=
  ∀ (s : Side) (p : ℕ) (l : Level), (b.map s)[p]? = some l → ∃ x n, l.head = some x ∧ b.arena.get x = some n

/-- The states the loops of `sweep` pass through: `none` at the top of `'levels`, `some p` inside the loop over
the level at `p`, with the book and the quantity as they are then. -/
inductive SweepPasses (P : Profile) (accountId : ℕ) (side : Side) (price : ℕ) (b₀ : Book) (q₀ : ℕ) :
    Option ℕ → Book → ℕ → Prop
  | start : SweepPasses P accountId side price b₀ q₀ none b₀ q₀
  | level {b : Book} {q lp : ℕ} : SweepPasses P accountId side price b₀ q₀ none b q → q > 0 →
      b.crossingPrice side price = some lp → SweepPasses P accountId side price b₀ q₀ (some lp) b q
  | levels {b : Book} {q lp : ℕ} : SweepPasses P accountId side price b₀ q₀ (some lp) b q → q ≠ 0 →
      b.levelHead side.opposite lp = none → SweepPasses P accountId side price b₀ q₀ none b q
  | own {b b' : Book} {q lp x : ℕ} {maker : Node} : SweepPasses P accountId side price b₀ q₀ (some lp) b q → q ≠ 0 →
      b.levelHead side.opposite lp = some x → b.arena.get x = some maker → maker.account = accountId →
      b.unlink P x = .ok b' → SweepPasses P accountId side price b₀ q₀ (some lp) b' q
  | filled {b b' : Book} {q lp x : ℕ} {maker : Node} : SweepPasses P accountId side price b₀ q₀ (some lp) b q → q ≠ 0 →
      b.levelHead side.opposite lp = some x → b.arena.get x = some maker → maker.account ≠ accountId →
      maker.qty ≤ q → Book.unlink P { b with lastTrade := some maker.price } x = .ok b' →
      SweepPasses P accountId side price b₀ q₀ (some lp) b' (q - maker.qty)
  | part {b b' : Book} {q lp x : ℕ} {maker : Node} : SweepPasses P accountId side price b₀ q₀ (some lp) b q → q ≠ 0 →
      b.levelHead side.opposite lp = some x → b.arena.get x = some maker → maker.account ≠ accountId →
      q < maker.qty →
      Book.reduceRestingQty P { b with lastTrade := some maker.price } x side.opposite lp q = .ok b' →
      SweepPasses P accountId side price b₀ q₀ (some lp) b' 0

/-- The states the loop of `stp_clear_crossing_self_orders` passes through. -/
inductive StpPasses (P : Profile) (accountId : ℕ) (side : Side) (price : ℕ) (b₀ : Book) : Book → Prop
  | start : StpPasses P accountId side price b₀ b₀
  | own {b b' : Book} {lp x : ℕ} {node : Node} : StpPasses P accountId side price b₀ b →
      b.crossingPrice side price = some lp → b.levelHead side.opposite lp = some x → b.arena.get x = some node →
      node.account = accountId → b.unlink P x = .ok b' → StpPasses P accountId side price b₀ b'

end Book

namespace Sim

variable {P : Profile} {N : ℕ∞} {a : ℕ} {s : Side} {p q : ℕ} {b b₀ : Book} {r : Ref}

/-- **An occupied level has a live head**, filed where it belongs. -/
theorem level_live (h : Sim P N b r) {l : Level} (hl : (b.map s)[p]? = some l) :
    ∃ x n, l.head = some x ∧ b.arena.get x = some n ∧ n.side = s ∧ n.price = p := by
  obtain ⟨R, hR, ⟨hne, hhead, -⟩, -⟩ := h.level_labels hl
  cases hc : levelOf (R s) p with
  | nil => exact absurd hc hne
  | cons e post =>
    obtain ⟨x, o⟩ := e
    obtain ⟨n, hn, hns, -, hnp, -⟩ := hR.node_at (show levelOf (R s) p = [] ++ (x, o) :: post from hc)
    refine ⟨x, n, ?_, hn, hns, hnp⟩
    rw [hhead, hc]
    rfl

theorem headsLive (h : Sim P N b r) : b.HeadsLive := by
  intro s p l hl
  obtain ⟨x, n, hx, hn, -⟩ := h.level_live hl
  exact ⟨x, n, hx, hn⟩

/-- **Every state of a sweep represents its orders.** -/
theorem of_sweepPasses (h : Sim P N b₀ r) {lp : Option ℕ} {b : Book} {q₀ q : ℕ}
    (hp : Book.SweepPasses P a s p b₀ q₀ lp b q) : ∃ r, Sim P N b r := by
  induction hp with
  | start => exact ⟨r, h⟩
  | level _ _ _ ih => exact ih
  | levels _ _ _ ih => exact ih
  | own _ _ _ hn _ hb ih =>
    obtain ⟨r, hs⟩ := ih
    obtain ⟨b', hb', hs'⟩ := hs.unlink hn
    obtain rfl := Except.ok.inj (hb'.symm.trans hb)
    exact ⟨_, hs'⟩
  | filled _ _ _ hn _ _ hb ih =>
    obtain ⟨r, hs⟩ := ih
    obtain ⟨b', hb', hs'⟩ := hs.unlink_traded hn _
    obtain rfl := Except.ok.inj (hb'.symm.trans hb)
    exact ⟨_, hs'⟩
  | @part b b' q lp x maker _ _ hhead hn _ hlt hb ih =>
    obtain ⟨r, hs⟩ := ih
    -- the head of the level is filed on its side and at its price
    obtain ⟨hside, hprice⟩ : maker.side = s.opposite ∧ maker.price = lp := by
      obtain ⟨l, hl, hx⟩ := Option.bind_eq_some_iff.1 hhead
      obtain ⟨x', n, hx', hn', hns, hnp⟩ := hs.level_live hl
      obtain rfl : x' = x := Option.some.inj (hx'.symm.trans hx)
      obtain rfl : n = maker := Option.some.inj (hn'.symm.trans hn)
      exact ⟨hns, hnp⟩
    obtain ⟨b'', hb', hs'⟩ := hs.reduce_traded hn hlt (some maker.price)
    rw [hside, hprice] at hb'
    rw [hprice] at hb
    obtain rfl := Except.ok.inj (hb'.symm.trans hb)
    exact ⟨_, hs'⟩

theorem of_stpPasses (h : Sim P N b₀ r) {b : Book} (hp : Book.StpPasses P a s p b₀ b) : ∃ r, Sim P N b r := by
  induction hp with
  | start => exact ⟨r, h⟩
  | own _ _ _ hn _ hb ih =>
    obtain ⟨r, hs⟩ := ih
    obtain ⟨b', hb', hs'⟩ := hs.unlink hn
    obtain rfl := Except.ok.inj (hb'.symm.trans hb)
    exact ⟨_, hs'⟩

end Sim

/-- What holds turn by turn holds for any number of extra turns. -/
theorem Refined.extra {ε α : Type} {x : ℕ → Except ε α} (h : ∀ fuel, Refined (x fuel) (x (fuel + 1))) {fuel : ℕ} {v : α}
    (hv : x fuel = .ok v) (extra : ℕ) : x (fuel + extra) = .ok v := by
  induction extra with
  | zero => exact hv
  | succ extra ih => exact h _ v ih

/-- The loops over a book end, without a panic, and pass through books with live heads only. -/
structure Book.LoopsEnd (P : Profile) (b : Book) : Prop where
  sweep : ∀ a i s p q, ∃ v, b.sweep P a i s p q = .ok v ∧
    ∀ extra, Book.sweepLoop P a i s p (3 * b.arena.slots.length + 3 + extra) none b q = .ok v
  sweep_heads : ∀ a s p q lp b' q', Book.SweepPasses P a s p b q lp b' q' → b'.HeadsLive
  stp : ∀ a s p, ∃ v, b.stpClearCrossingSelfOrders P a s p = .ok v ∧
    ∀ extra, Book.stpClearLoop P a s p (b.arena.slots.length + 1 + extra) b = .ok v
  stp_heads : ∀ a s p b', Book.StpPasses P a s p b b' → b'.HeadsLive
  fillable : ∀ a s p q, ∃ v, b.isFillable a s p q = .ok v
  foreignQty : ∀ (a : ℕ) (s : Side) (p : ℕ) (l : Level) (needed : ℕ), (b.map s)[p]? = some l → ∃ v,
    ∀ extra, Book.levelForeignQty b.arena a (b.arena.slots.length + 1 + extra) l.head needed = .ok v
  massCancel : ∀ a, ∃ v, b.massCancel P a = .ok v

theorem Sim.loopsEnd {P : Profile} {N : ℕ∞} {b : Book} {r : Ref} (h : Sim P N b r) : b.LoopsEnd P where
  sweep := by
    intro a i s p q
    obtain ⟨b', hb', -⟩ := h.sweep a i s p q
    exact ⟨_, hb', fun extra => Refined.extra (x := fun fuel => Book.sweepLoop P a i s p fuel none b q)
      (fun fuel => Book.sweepLoop_refined fuel none b q) hb' extra⟩
  sweep_heads := by
    intro a s p q lp b' q' hp
    obtain ⟨r', hs⟩ := h.of_sweepPasses hp
    exact hs.headsLive
  stp := by
    intro a s p
    obtain ⟨b', hb', -⟩ := h.stpClear a s p
    exact ⟨_, hb', fun extra => Refined.extra (x := fun fuel => Book.stpClearLoop P a s p fuel b)
      (fun fuel => Book.stpClearLoop_refined fuel b) hb' extra⟩
  stp_heads := by
    intro a s p b' hp
    obtain ⟨r', hs⟩ := h.of_stpPasses hp
    exact hs.headsLive
  fillable := fun a s p q => ⟨_, h.isFillable a s p q⟩
  foreignQty := by
    intro a s p l needed hl
    obtain ⟨R, hR, ⟨-, hhead, -⟩, -⟩ := h.level_labels hl
    have hlen := hR.levelOf_length_le s p
    obtain ⟨hit, left, he, -⟩ := hR.levelForeignQty a (levelOf (R s) p) [] _ needed rfl hlen
    refine ⟨(hit, left), fun extra => ?_⟩
    rw [hhead]
    exact Refined.extra
      (x := fun fuel => Book.levelForeignQty b.arena a fuel ((levelOf (R s) p).map Prod.fst).head? needed)
      (fun fuel => Book.levelForeignQty_refined fuel _ needed) he extra
  massCancel := by
    intro a
    obtain ⟨b', hb', -⟩ := h.massCancel (a := a)
    exact ⟨_, hb'⟩

/-- **Matching loops terminate and never hit an internal panic**: on every book a run over decodable commands
leaves behind, and on every such book with one order taken out, which is what an amend sweeps. -/
theorem matching_loops_terminate {P : Profile} (hP : P.Total) {cmds : List Command} (hcmds : ∀ c ∈ cmds, c.Decodable)
    {e : Engine} {evss : List (List Event)} (hrun : Engine.new.runFrom P cmds = .ok (e, evss)) :
    e.book.LoopsEnd P ∧ ∀ x n b', e.book.arena.get x = some n → e.book.unlink P x = .ok b' → b'.LoopsEnd P := by
  obtain ⟨r, hs⟩ := sim_of_run hP hcmds hrun
  refine ⟨hs.loopsEnd, ?_⟩
  intro x n b' hn hb
  obtain ⟨b'', hb', hs'⟩ := hs.unlink hn
  obtain rfl := Except.ok.inj (hb'.symm.trans hb)
  exact hs'.loopsEnd

/-- A book after an own and a foreign ask have been hit: its loops end. -/
theorem matching_loops_terminate_hit :
    ∃ e evss, Engine.new.runFrom (.exact true)
        [.newOrder 1 1 .sell 100 5 .limit .gtc 0, .newOrder 2 1 .sell 101 5 .limit .gtc 0,
         .newOrder 2 2 .buy 101 3 .limit .gtc 0] = .ok (e, evss) ∧ e.book.LoopsEnd (.exact true) := by
  obtain ⟨⟨e, evss⟩, hrun⟩ := exists_of_isOk (x := Engine.new.runFrom (.exact true)
    [.newOrder 1 1 .sell 100 5 .limit .gtc 0, .newOrder 2 1 .sell 101 5 .limit .gtc 0,
     .newOrder 2 2 .buy 101 3 .limit .gtc 0]) (by decide +kernel)
  exact ⟨e, evss, hrun, (matching_loops_terminate (Profile.exact_total true) (by decide) hrun).1⟩

end MatchingEngine
