import MatchingEngine.Proof.Refine
import MatchingEngine.Ref.Step

/-!
# Runs of the engine are runs of the reference book

`Sim.apply` is one command; here whole runs. A run from the empty engine over
commands without zero quantities and prices never panics, emits the reference
book's events command by command, and ends in a book that stands for the reference
book's state.
-/

namespace MatchingEngine

/-- No zero quantity in a new order, no zero price in an order that may rest. -/
def Command.Nonzero : Command → Prop
  | .newOrder _ _ _ p q k _ _ => q ≠ 0 ∧ (k = .limit → p ≠ 0)
  | .cancelReplace _ _ p _ => p ≠ 0
  | _ => True

instance : DecidablePred Command.Nonzero
  | .newOrder _ _ _ p q k _ _ => inferInstanceAs (Decidable (q ≠ 0 ∧ (k = .limit → p ≠ 0)))
  | .cancelReplace _ _ p _ => inferInstanceAs (Decidable (p ≠ 0))
  | .cancelOrder _ _ => .isTrue trivial
  | .massCancel _ => .isTrue trivial
  | .killSwitch _ => .isTrue trivial
  | .snapshot => .isTrue trivial

theorem Command.Nonzero.checked {P : Profile} {c : Command} (h : c.Nonzero) : c.Checked P := by
  cases c with
  | newOrder => exact ⟨h.1, fun _ => h.2⟩
  | _ => trivial

namespace Ref

/-- No order rests at price zero. -/
def NoZero (r : Ref) : Prop := ∀ o ∈ r.orders, o.price ≠ 0

/-- A command that brings no zero price leaves none. -/
theorem Did.noZero {r r' : Ref} {c : Command} {evs : List Event} (hd : Did r c r' evs) (h : r.WF) (hz : r.NoZero)
    (hc : ∀ o, r.Brings c o → o.price ≠ 0) : r'.NoZero := by
  intro o ho
  obtain ⟨s, ho⟩ := (r'.mem_orders o).1 ho
  rcases hd.origin h ho with ⟨x, hx, -, hp, -⟩ | hb
  · rw [← hp]
    exact hz x (r.side_sub_orders s x hx)
  · exact hc o hb

end Ref

theorem Command.Nonzero.brings {c : Command} (h : c.Nonzero) {r : Ref} {o : Order} (hb : r.Brings c o) : o.price ≠ 0 := by
  cases c with
  | newOrder a i s p q k t ts => rw [hb.2.2.2.2.1]; exact h.2 hb.1
  | cancelReplace a i p q => rw [hb.2.2.1]; exact h
  | _ => exact hb.elim

section

variable {P : Profile} {e : Engine} {r : Ref}

/-- **Runs follow the reference book.** -/
theorem Sim.run (hP : P.Total) (h : Sim P ⊤ e.book r) (hz : r.NoZero) {cmds : List Command}
    (hc : ∀ c ∈ cmds, c.Nonzero) :
    ∃ e', e.runFrom P cmds = .ok (e', (r.runFrom P cmds).2) ∧ Sim P ⊤ e'.book (r.runFrom P cmds).1 := by
  induction cmds generalizing e r with
  | nil => exact ⟨e, rfl, h⟩
  | cons c cmds ih =>
    have hc₀ := hc c (by simp)
    obtain ⟨e₁, he₁, hs₁⟩ := h.apply hc₀.checked (Fits.of_total hP _) (fun _ => hz)
    have hz₁ : (r.apply P c).1.NoZero := (r.did P c).noZero h.wf hz (fun o hb => hc₀.brings hb)
    obtain ⟨e₂, he₂, hs₂⟩ := ih hs₁ hz₁ (fun c' hc' => hc c' (List.mem_cons_of_mem _ hc'))
    exact ⟨e₂, run_cons_ok he₁ he₂, hs₂⟩

end

/-- **The engine refines the reference order book.** Under exact sums, with or without
`debug_assert!`, every run over nonzero commands ends well, its events are the reference book's
for each command, and the final book stands for the reference book's state. -/
theorem engine_refines_reference (debug : Bool) (cmds : List Command) (hcmds : ∀ c ∈ cmds, c.Nonzero) :
    ∃ e, Engine.new.runFrom (.exact debug) cmds = .ok (e, (Ref.new.runFrom (.exact debug) cmds).2) ∧
      e.book.abs = (Ref.new.runFrom (.exact debug) cmds).1 := by
  have hz : Ref.new.NoZero := by
    intro o ho
    simp [Ref.new, Ref.orders] at ho
  obtain ⟨e, he, hs⟩ := (Sim.new (.exact debug) ⊤).run (e := Engine.new) (Profile.exact_total debug) hz hcmds
  exact ⟨e, he, hs.abs⟩

/-- A sweep through two levels with an own order on the way, then a requeue and a mass cancel. -/
theorem engine_refines_reference_run :
    ∃ e, Engine.new.runFrom (.exact true)
        [.newOrder 1 1 .sell 101 5 .limit .gtc 0, .newOrder 2 1 .sell 100 3 .limit .gtc 0,
         .newOrder 3 7 .sell 100 2 .limit .gtc 0, .newOrder 3 8 .buy 101 6 .limit .gtc 0,
         .cancelReplace 1 1 99 9, .snapshot, .massCancel 1] =
        .ok (e, (Ref.new.runFrom (.exact true)
        [.newOrder 1 1 .sell 101 5 .limit .gtc 0, .newOrder 2 1 .sell 100 3 .limit .gtc 0,
         .newOrder 3 7 .sell 100 2 .limit .gtc 0, .newOrder 3 8 .buy 101 6 .limit .gtc 0,
         .cancelReplace 1 1 99 9, .snapshot, .massCancel 1]).2) ∧
      e.book.abs = (Ref.new.runFrom (.exact true)
        [.newOrder 1 1 .sell 101 5 .limit .gtc 0, .newOrder 2 1 .sell 100 3 .limit .gtc 0,
         .newOrder 3 7 .sell 100 2 .limit .gtc 0, .newOrder 3 8 .buy 101 6 .limit .gtc 0,
         .cancelReplace 1 1 99 9, .snapshot, .massCancel 1]).1 :=
  engine_refines_reference true _ (by decide)

end MatchingEngine
