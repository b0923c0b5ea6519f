import MatchingEngine.Main.AtRest
import MatchingEngine.Ref.Sweep

/-!
# Every trade clears

A trade is told three times: the buyer and the seller get a fill each, on whatever connections they
have, and market data a print. Whatever the threads do in between, the three accounts agree
(`trades_clear`): the fills of buyers, the fills of sellers and the prints are one sequence of prices
and quantities, and no account trades with itself.

* `Cleared`: the events of some commands, told three times alike.
* `Ref.WF.sweep_cleared`, `Ref.Did.cleared`: one command; `System.run_cleared`: whole runs.
-/

namespace MatchingEngine

/-- A fill on a side: account, price and quantity. -/
def Event.fillOn (s : Side) : Event → Option (ℕ × ℕ × ℕ)
  | .filled accountId _ side price qty _ _ => if side = s then some (accountId, price, qty) else none
  | _ => none

/-- A print: price and quantity. -/
def Event.print : Event → Option (ℕ × ℕ)
  | .trade price qty _ => some (price, qty)
  | _ => none

def fillsOn (s : Side) (evs : List Event) : List (ℕ × ℕ × ℕ) := evs.filterMap (Event.fillOn s)

def prints (evs : List Event) : List (ℕ × ℕ) := evs.filterMap Event.print

/-- Buyers, sellers and the tape tell the same trades, each between two accounts. -/
structure Cleared (evs : List Event) : Prop where
  sides : List.Forall₂ (fun b s => b.1 ≠ s.1 ∧ b.2 = s.2) (fillsOn .buy evs) (fillsOn .sell evs)
  tape : (fillsOn .buy evs).map Prod.snd = prints evs

namespace Cleared

variable {evs evs' : List Event}

theorem append (h : Cleared evs) (h' : Cleared evs') : Cleared (evs ++ evs') := by
  constructor
  · unfold fillsOn
    rw [List.filterMap_append, List.filterMap_append]
    exact List.rel_append h.sides h'.sides
  · unfold fillsOn prints
    rw [List.filterMap_append, List.filterMap_append, List.map_append]
    exact congrArg₂ _ h.tape h'.tape

/-- Events that tell of no trade. -/
theorem of_none (h : ∀ ev ∈ evs, (∀ s, ev.fillOn s = none) ∧ ev.print = none) : Cleared evs := by
  have hfills : ∀ s, fillsOn s evs = [] := fun s => List.filterMap_eq_nil_iff.2 fun ev hev => (h ev hev).1 s
  have hprints : prints evs = [] := List.filterMap_eq_nil_iff.2 fun ev hev => (h ev hev).2
  constructor
  · rw [hfills, hfills]
    exact .nil
  · rw [hfills, hprints]
    rfl

theorem cons {ev : Event} (hev : (∀ s, ev.fillOn s = none) ∧ ev.print = none) (h : Cleared evs) : Cleared (ev :: evs) :=
  append (of_none (List.forall_mem_singleton.2 hev)) h

theorem snoc {ev : Event} (h : Cleared evs) (hev : (∀ s, ev.fillOn s = none) ∧ ev.print = none) : Cleared (evs ++ [ev]) :=
  h.append (of_none (List.forall_mem_singleton.2 hev))

theorem cancelled {α : Type} {l : List α} {f : α → Event} (hf : ∀ x, ∃ a i, f x = .cancelled a i) : Cleared (l.map f) := by
  refine of_none fun ev hev => ?_
  obtain ⟨x, -, rfl⟩ := List.mem_map.1 hev
  obtain ⟨a, i, hx⟩ := hf x
  rw [hx]
  exact ⟨fun _ => rfl, rfl⟩

/-- One match. -/
theorem fillEvents {a : ℕ} {o : Order} (ha : o.account ≠ a) (i : ℕ) (s : Side) (x v : ℕ) :
    Cleared (Ref.fillEvents a i s o x v) := by
  cases s with
  | buy => exact ⟨.cons ⟨ha.symm, rfl⟩ .nil, rfl⟩
  | sell => exact ⟨.cons ⟨ha, rfl⟩ .nil, rfl⟩

end Cleared

namespace Ref

variable {r r' : Ref} {c : Command} {evs : List Event}

/-- **A sweep clears**, match by match. -/
theorem WF.sweep_cleared (h : r.WF) (a i : ℕ) (s : Side) (limit q : ℕ) : Cleared (r.sweep a i s limit q).2.2 := by
  refine h.sweep_induct (motive := fun _ _ res => Cleared res.2.2) a i s limit ?_ ?_ ?_ ?_ q
  · intro r q _ _
    exact .of_none (List.forall_mem_nil _)
  · intro r q o l r' q' evs _ _ _ _ _ ih
    exact .cons ⟨fun _ => rfl, rfl⟩ ih
  · intro r q o l r' q' evs _ _ _ _ ha _ ih
    exact (Cleared.fillEvents ha i s _ _).append ih
  · intro r q o l _ _ _ _ ha _
    exact .fillEvents ha i s _ _

/-- **One command clears.** -/
theorem Did.cleared (hd : Did r c r' evs) (h : r.WF) : Cleared evs := by
  cases hd with
  | idle quiet told =>
    refine .of_none fun ev hev => ?_
    have hq := quiet ev hev
    cases ev with
    | filled => exact hq.elim
    | trade => exact hq.elim
    | _ => exact ⟨fun _ => rfl, rfl⟩
  | entered limit rests fresh own bound drops =>
    exact (h.sweep_cleared _ _ _ _ _).snoc ⟨fun _ => rfl, rfl⟩
  | posted fresh clear =>
    exact (Cleared.cancelled fun o => ⟨_, _, rfl⟩).snoc ⟨fun _ => rfl, rfl⟩
  | refused fresh =>
    exact (Cleared.cancelled fun o => ⟨_, _, rfl⟩).snoc ⟨fun _ => rfl, rfl⟩
  | amended found pos le => exact .of_none (List.forall_mem_singleton.2 ⟨fun _ => rfl, rfl⟩)
  | @requeued a i p q s o found pos changes =>
    have hout := h.remove (find_some found).1
    exact .cons ⟨fun _ => rfl, rfl⟩ (hout.sweep_cleared a i s p q)
  | cancelled found => exact .of_none (List.forall_mem_singleton.2 ⟨fun _ => rfl, rfl⟩)
  | emptied => exact .cancelled fun id => ⟨_, _, rfl⟩

/-- A top-of-book update tells of no trade. -/
theorem WF.apply_cleared (h : r.WF) (P : Profile) (c : Command) : Cleared (r.apply P c).2 := by
  have hd := (r.did P c).cleared h
  unfold apply
  dsimp only
  split
  · exact hd.snoc ⟨fun _ => rfl, rfl⟩
  · exact hd

end Ref

/-- **Whole runs clear.** -/
theorem System.run_cleared {P : Profile} (hP : P.Total) {config : RiskConfig} {cmds : List Command}
    (hcmds : ∀ c ∈ cmds, c.Decodable) {s : System} {evss : List (List (ℕ × Event))}
    (hrun : (System.new config).runFrom P cmds = .ok (s, evss)) : Cleared (evss.flatten.map Prod.snd) := by
  have hinv : Cleared (evss.flatten.map Prod.snd) ∧ ∃ r, Sim P ⊤ s.engine.book r := by
    refine run_history_along (C := fun _ c => c.Decodable)
      (fun (evss : List (List (ℕ × Event))) (s : System) =>
        Cleared (evss.flatten.map Prod.snd) ∧ ∃ r, Sim P ⊤ s.engine.book r) ?_
      ⟨.of_none (List.forall_mem_nil _), _, Sim.new P ⊤⟩ (along_of_forall hcmds) hrun
    rintro evss s c s' evs ⟨hcleared, r, hs⟩ hc hstep
    rw [List.flatten_append, List.map_append, List.flatten_singleton]
    obtain ⟨-, -, ⟨he, a, i, reason, rfl⟩ | ⟨-, evs', ha, rfl⟩⟩ := System.processCommand_cases hstep
    · exact ⟨hcleared.snoc ⟨fun _ => rfl, rfl⟩, r, he ▸ hs⟩
    · obtain ⟨rfl, hs'⟩ := hs.applied hP hc ha
      rw [System.map_snd_numbered]
      exact ⟨hcleared.append (hs.wf.apply_cleared P c), _, hs'⟩
  exact hinv.1

/-- Items left out that tell of nothing. -/
theorem filterMap_filter_eq {α β : Type} {p : α → Bool} {f : α → Option β} {l : List α}
    (h : ∀ x ∈ l, p x = false → f x = none) : (l.filter p).filterMap f = l.filterMap f := by
  induction l with
  | nil => rfl
  | cons x l ih =>
    obtain ⟨hx, hl⟩ := List.forall_mem_cons.1 h
    cases hp : p x with
    | true => rw [List.filter_cons_of_pos hp, List.filterMap_cons, List.filterMap_cons, ih hl]
    | false => rw [List.filter_cons_of_neg (by simp [hp]), List.filterMap_cons_none (hx hp), ih hl]

/-- **Every trade clears.** Whatever order the daemon's threads ran in, once they are at rest the fills dispatched to
buyers, the fills dispatched to sellers, and the prints offered as market data tell the same trades in the same order,
price for price and quantity for quantity, and the two sides of each are different accounts. -/
theorem trades_clear {P : Profile} (hP : P.Total) (k : ChannelCapacities) (config : RiskConfig)
    (recorder : Option (List UInt8)) {acts : List DaemonAct} {d : Daemon k} {os : List Obs}
    (hrun : run (Daemon.step P) (.start k config recorder) acts = .ok (d, os)) (hidle : d.Idle) :
    List.Forall₂ (fun b s => b.1 ≠ s.1 ∧ b.2 = s.2)
        (fillsOn .buy ((os.flatMap Obs.dispatchedItem).map (fun x => x.2.2)))
        (fillsOn .sell ((os.flatMap Obs.dispatchedItem).map (fun x => x.2.2))) ∧
      (fillsOn .buy ((os.flatMap Obs.dispatchedItem).map (fun x => x.2.2))).map Prod.snd = prints d.feed.emitted := by
  obtain ⟨final, outs, hlin⟩ := Daemon.linearized hrun
  have hdec : ∀ x ∈ takenCommands os, x.2.Decodable := fun x hx => hlin.decodable x (List.mem_append_left _ hx)
  obtain ⟨evss, hsys, hret, hmd⟩ := MatchingThread.run_system hlin.run
  have hcleared := System.run_cleared hP (List.forall_mem_map.2 hdec) hsys
  -- a reject of a reader is no fill, and neither is market data
  have hfills : ∀ s, fillsOn s ((os.flatMap Obs.dispatchedItem).map (fun x => x.2.2)) =
      fillsOn s (evss.flatten.map Prod.snd) := by
    intro s
    calc fillsOn s ((os.flatMap Obs.dispatchedItem).map (fun x => x.2.2))
        = (os.flatMap Obs.dispatchedItem).filterMap (fun x => x.2.2.fillOn s) := List.filterMap_map
      _ = ((os.flatMap Obs.dispatchedItem).filter (fun x => x.2.1 ≠ wireLevelRejectEngineSeq)).filterMap
            (fun x => x.2.2.fillOn s) := by
          refine (filterMap_filter_eq fun x hx hzero => ?_).symm
          obtain ⟨reason, hev⟩ := hlin.reject_of_zero (List.mem_append_left _ hx) (by simpa using hzero)
          rw [hev]
          rfl
      _ = (MatchingThread.returned outs).filterMap (fun x => x.2.2.fillOn s) := by rw [hlin.dispatched_at_rest hidle]
      _ = ((MatchingThread.returned outs).map Prod.snd).filterMap (fun e => e.2.fillOn s) := by
          rw [List.filterMap_map]
          rfl
      _ = evss.flatten.filterMap (fun e => e.2.fillOn s) := by
          rw [hret]
          refine filterMap_filter_eq fun e _ hkind => ?_
          cases hev : e.2 with
          | filled => simp [hev, Event.isMarketData] at hkind
          | _ => rfl
      _ = fillsOn s (evss.flatten.map Prod.snd) := by
          unfold fillsOn
          rw [List.filterMap_map]
          rfl
  have hprints : prints d.feed.emitted = prints (evss.flatten.map Prod.snd) := by
    have hall : d.feed.emitted = (evss.flatten.filter (fun e => e.2.isMarketData)).map Prod.snd := by
      rw [← hmd, hlin.marketData, hidle.toSend]
      exact (List.append_nil _).symm
    unfold prints
    rw [hall, List.filterMap_map, List.filterMap_map]
    refine filterMap_filter_eq fun e _ hkind => ?_
    cases hev : e.2 with
    | trade => simp [hev, Event.isMarketData] at hkind
    | _ => simp [hev, Event.print]
  rw [hfills, hfills, hprints]
  exact ⟨hcleared.sides, hcleared.tape⟩

/-- Two clients, one trade of three lots. -/
theorem trades_clear_two_clients :
    ∃ d os, run (Daemon.step .release) (.start .default .default (some [])) twoClients = .ok (d, os) ∧ d.Idle ∧
      prints d.feed.emitted = [(100, 3)] ∧
      List.Forall₂ (fun b s => b.1 ≠ s.1 ∧ b.2 = s.2)
        (fillsOn .buy ((os.flatMap Obs.dispatchedItem).map (fun x => x.2.2)))
        (fillsOn .sell ((os.flatMap Obs.dispatchedItem).map (fun x => x.2.2))) ∧
      (fillsOn .buy ((os.flatMap Obs.dispatchedItem).map (fun x => x.2.2))).map Prod.snd = prints d.feed.emitted := by
  obtain ⟨⟨d, os⟩, hrun, hbelow, hprints⟩ := exists_ok_of_decide
    (x := run (Daemon.step .release) (.start .default .default (some [])) twoClients)
    (p := fun r => r.1.idleBelow = true ∧ prints r.1.feed.emitted = [(100, 3)]) (by decide +kernel)
  obtain ⟨hf, hfeed⟩ := Daemon.run_fresh (Daemon.fresh_start .default .default (some [])) (fun _ _ => rfl) hrun
  have hidle := Daemon.idle_of_idleBelow hf hfeed hbelow
  exact ⟨d, os, hrun, hidle, hprints, trades_clear Profile.release_total .default .default (some []) hrun hidle⟩

end MatchingEngine
