import MatchingEngine.Main.Refinement
import MatchingEngine.Proof.Image

/-!
# Buy and sell are mirror images

The source writes its buy and its sell branches out by hand, with `first` for `last`, `<=` for `>=`
and `u64::MAX` for `0`. Exchanging the sides and reflecting every price in `C` is a symmetry of the
book, so each branch does what the other does.

* `mirror C`: the symmetry.
* `buy_sell_mirror`: runs of the engine.
-/

namespace MatchingEngine

/-- A price strictly between zero and `C`; it and its mirror image are `u64`. -/
def Inside (C p : ℕ) : Prop := 0 < p ∧ p < C ∧ p ≤ u64Max ∧ C - p ≤ u64Max

instance (C p : ℕ) : Decidable (Inside C p) := inferInstanceAs (Decidable (_ ∧ _))

theorem Inside.reflect {C p : ℕ} (h : Inside C p) : Inside C (C - p) := by
  obtain ⟨hpos, hlt, hp, hq⟩ := h
  exact ⟨by omega, by omega, hq, by omega⟩

/-- Sides exchanged, prices reflected in `C`. -/
def mirror (C : ℕ) : Symmetry where
  account a := a
  id _ i := i
  account_inj _ _ h := h
  id_inj _ _ _ h := h
  side := Side.opposite
  price p := C - p
  dom := Inside C
  side_opposite _ := rfl
  better := by
    intro p q s hp hq
    have h1 := hp.2.1
    have h2 := hq.2.1
    cases s with
    | buy =>
      show C - p ≤ C - q ↔ q ≤ p
      omega
    | sell =>
      show C - q ≤ C - p ↔ p ≤ q
      omega
  market := by
    intro p s hp
    obtain ⟨-, -, hp, hq⟩ := hp
    -- no price is beyond a market order's limit
    cases s with
    | buy => exact iff_of_true (Nat.zero_le (C - p)) hp
    | sell => exact iff_of_true hq (Nat.zero_le p)

/-- Quantities in new orders, prices inside `1..C-1` in limit orders and amends, no snapshot. -/
def Command.Mirrorable (C : ℕ) : Command → Prop
  | .newOrder _ _ _ p q k _ _ => q ≠ 0 ∧ (k = .limit → Inside C p)
  | .cancelReplace _ _ p _ => Inside C p
  | .snapshot => False
  | _ => True

instance (C : ℕ) : DecidablePred (Command.Mirrorable C)
  | .newOrder _ _ _ p q k _ _ => inferInstanceAs (Decidable (q ≠ 0 ∧ (k = .limit → Inside C p)))
  | .cancelReplace _ _ p _ => inferInstanceAs (Decidable (Inside C p))
  | .cancelOrder _ _ => .isTrue trivial
  | .massCancel _ => .isTrue trivial
  | .killSwitch _ => .isTrue trivial
  | .snapshot => .isFalse id

namespace Command.Mirrorable

variable {C : ℕ} {c : Command}

theorem ne_snapshot (h : c.Mirrorable C) : c ≠ .snapshot := by
  rintro rfl
  exact h

theorem admits (h : c.Mirrorable C) : (mirror C).Admits c := by
  cases c with
  | newOrder a i s p q k t ts => exact h.2
  | cancelReplace a i p q => exact h
  | _ => trivial

theorem nonzero (h : c.Mirrorable C) : c.Nonzero := by
  cases c with
  | newOrder a i s p q k t ts => exact ⟨h.1, fun hk => (h.2 hk).1.ne'⟩
  | cancelReplace a i p q => exact (show Inside C p from h).1.ne'
  | _ => trivial

/-- The mirror image of such a command is one. -/
theorem reflect (h : c.Mirrorable C) : ((mirror C).command c).Mirrorable C := by
  cases c with
  | newOrder a i s p q k t ts =>
    refine ⟨h.1, fun hk => ?_⟩
    subst hk
    exact (h.2 rfl).reflect
  | cancelReplace a i p q => exact Inside.reflect h
  | snapshot => exact h
  | _ => trivial

end Command.Mirrorable

/-- **Buy and sell are mirror images.** Over commands whose limit prices and new prices lie in `1..C-1`, no snapshot
among them, the engine runs to the end on the mirrored commands as on the commands themselves, and emits for each the
mirrored events: sides exchanged, prices reflected, best bid and best ask exchanged, the rest and the order the same. -/
theorem buy_sell_mirror {P : Profile} (hP : P.Total) (C : ℕ) {cmds : List Command}
    (hcmds : ∀ c ∈ cmds, c.Mirrorable C) :
    ∃ e evss e', Engine.new.runFrom P cmds = .ok (e, evss) ∧
      Engine.new.runFrom P (cmds.map (mirror C).command) = .ok (e', evss.map (List.map (mirror C).event)) := by
  have hz : Ref.new.NoZero := by simp [Ref.NoZero, Ref.new, Ref.orders]
  obtain ⟨e, he, -⟩ := (Sim.new P ⊤).run (e := Engine.new) hP hz (fun c hc => (hcmds c hc).nonzero)
  have hagree : Agree (fun e e' : Engine => Images P (mirror C) e.book e'.book) (List.map (List.map (mirror C).event))
      (Engine.new.runFrom P cmds) (Engine.new.runFrom P (cmds.map (mirror C).command)) :=
    run_agree (Q := Command.Mirrorable C) (fun e e' c h hc =>
        h.apply hP hc.nonzero.checked hc.reflect.nonzero.checked hc.admits hc.ne_snapshot)
      (Images.new P (mirror C)) hcmds
  rw [he] at hagree
  obtain ⟨e', he', -⟩ := hagree.ok_inv
  exact ⟨e, _, e', he, he'⟩

/-- Two resting bids, an own one cleared by a PostOnly offer, a FOK offer filled, an amend that crosses and a market
order; in the mirror at 200 the bids are offers and the offers bids. -/
theorem buy_sell_mirror_in_200 :
    ∃ e evss e', Engine.new.runFrom .release
        [.newOrder 1 1 .buy 101 5 .limit .gtc 0, .newOrder 2 1 .buy 99 4 .limit .gtc 0,
         .newOrder 1 2 .sell 100 3 .limit .postOnly 0, .newOrder 3 1 .sell 99 2 .limit .fok 0,
         .cancelReplace 1 2 98 6, .newOrder 3 2 .buy 0 9 .market .gtc 0, .massCancel 1] = .ok (e, evss) ∧
      Engine.new.runFrom .release
        [.newOrder 1 1 .sell 99 5 .limit .gtc 0, .newOrder 2 1 .sell 101 4 .limit .gtc 0,
         .newOrder 1 2 .buy 100 3 .limit .postOnly 0, .newOrder 3 1 .buy 101 2 .limit .fok 0,
         .cancelReplace 1 2 102 6, .newOrder 3 2 .sell 0 9 .market .gtc 0, .massCancel 1] =
        .ok (e', evss.map (List.map (mirror 200).event)) :=
  buy_sell_mirror Profile.release_total 200 (by decide)

end MatchingEngine
