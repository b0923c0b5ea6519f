import MatchingEngine.Proof.Image
import MatchingEngine.Risk.Gate
import MatchingEngine.Gateway.Matching

/-!
# Identifiers are opaque

Account and order ids are compared and nothing else: the order index is keyed on the pair, no
output follows the order of a hash map, nothing is sorted by id. So the system cannot tell a run
from the same run under new names.

* `Images.preApplyCheck`: the gate decides the same.
* `Images.processCommand`: one command.
* `identifiers_opaque`: whole runs.
-/

namespace MatchingEngine

section Gate

variable {P : Profile} {T : Symmetry} {b b' : Book} (hT : T.Plain)
include hT

theorem Images.marketReferencePrice (h : Images P T b b') (s : Side) :
    RiskState.marketReferencePrice s b' = RiskState.marketReferencePrice s b := by
  unfold RiskState.marketReferencePrice
  rw [h.lastTrade hT, h.bestAsk hT, h.bestBid hT]

theorem Images.priceBandReference (h : Images P T b b') :
    RiskState.priceBandReference P b' = RiskState.priceBandReference P b := by
  unfold RiskState.priceBandReference
  rw [h.lastTrade hT, h.bestAsk hT, h.bestBid hT]

/-- The checks of a new order read names only to look up its account. -/
theorem Images.newOrderCheck (h : Images P T b b') (config : RiskConfig) (a i : ℕ) (s : Side) (p q : ℕ) (k : OrderKind)
    (t : Tif) :
    RiskState.newOrderCheck P config (T.account a) (T.id a i) s p q k t b' =
      (RiskState.newOrderCheck P config a i s p q k t b).map (Option.map T.event) := by
  unfold RiskState.newOrderCheck
  rw [h.openOrderCount, h.accountNotional hT, h.marketReferencePrice hT, h.priceBandReference hT]
  simp only [bind, Except.bind, pure, Except.pure]
  split
  · rfl
  · -- past the cap on open orders
    cases k with
    | market =>
      simp only
      cases RiskState.marketReferencePrice s b with
      | none => rfl
      | some reference =>
        simp only
        cases P.store128 ((b.accountNotional a : ℤ) + (reference * q : ℕ)) with
        | error e => rfl
        | ok v =>
          simp only
          split
          · rfl
          · rfl
    | limit =>
      simp only
      cases P.store128 ((b.accountNotional a : ℤ) + (p * q : ℕ)) with
      | error e => rfl
      | ok v =>
        simp only
        split
        · rfl
        · cases RiskState.priceBandReference P b with
          | error e => rfl
          | ok reference =>
            cases reference with
            | none => rfl
            | some reference =>
              simp only
              cases RiskState.withinBand P config.priceBandPct reference p with
              | error e => rfl
              | ok inside => cases inside <;> rfl

theorem Images.killSwitchCheck (h : Images P T b b') (c : Command) :
    RiskState.killSwitchCheck (T.command c) b' = (RiskState.killSwitchCheck c b).map T.event := by
  cases c with
  | cancelReplace a i p q =>
    simp only [Symmetry.command, RiskState.killSwitchCheck, h.restingOrderSnapshot hT, hT.price]
    cases b.restingOrderSnapshot a i with
    | none => rfl
    | some old =>
      obtain ⟨oldPrice, oldQty⟩ := old
      simp only
      split
      · rfl
      · rfl
  | _ => rfl

/-- **The gate decides the same.** -/
theorem Images.preApplyCheck (h : Images P T b b') (s : RiskState) (c : Command) :
    s.preApplyCheck P (T.command c) b' = (s.preApplyCheck P c b).map (fun x => (x.1, x.2.map T.event)) := by
  have hswitch : (if s.killSwitchEngaged then RiskState.killSwitchCheck (T.command c) b' else none) =
      (if s.killSwitchEngaged then RiskState.killSwitchCheck c b else none).map T.event := by
    rw [h.killSwitchCheck hT]
    split
    · rfl
    · rfl
  cases c with
  | killSwitch engaged => rfl
  | newOrder a i side p q k t ts =>
    have himage : T.command (.newOrder a i side p q k t ts) = .newOrder (T.account a) (T.id a i) side p q k t ts := by
      cases k with
      | limit => simp only [Symmetry.command, hT.side, hT.price]
      | market => simp only [Symmetry.command, hT.side]
    rw [himage] at hswitch ⊢
    simp only [RiskState.preApplyCheck, hswitch, h.newOrderCheck hT, bind, Except.bind, pure, Except.pure]
    cases (if s.killSwitchEngaged then RiskState.killSwitchCheck (.newOrder a i side p q k t ts) b else none) with
    | some reject => rfl
    | none =>
      simp only [Option.map_none]
      cases RiskState.newOrderCheck P s.config a i side p q k t b with
      | error e => rfl
      | ok v => rfl
  | _ =>
    rw [RiskState.preApplyCheck_other (by simp [Symmetry.command]) (by simp [Symmetry.command]), hswitch,
      RiskState.preApplyCheck_other (by simp) (by simp)]
    rfl

end Gate

/-- Two systems that differ in names only. -/
structure Renamed (P : Profile) (T : Symmetry) (s s' : System) : Prop where
  book : Images P T s.engine.book s'.engine.book
  risk : s'.risk = s.risk
  seq : s'.engineSeq = s.engineSeq

/-- The same event, with its number, under new names. -/
def Symmetry.numbered (T : Symmetry) (e : ℕ × Event) : ℕ × Event := (e.1, T.event e.2)

/-- **One command, under new names.** -/
theorem Renamed.processCommand {P : Profile} {T : Symmetry} (hP : P.Total) (hT : T.Plain) {s s' : System}
    (h : Renamed P T s s') {c : Command} (hc : c.Checked P) :
    Agree (Renamed P T) (List.map T.numbered) (s.processCommand P c) (s'.processCommand P (T.command c)) := by
  have hgate := h.book.preApplyCheck hT s.risk c
  unfold System.processCommand
  rw [h.risk, h.seq, hgate]
  simp only [bind, Except.bind, pure, Except.pure]
  cases s.risk.preApplyCheck P c s.engine.book with
  | error e => exact .error e
  | ok v =>
    obtain ⟨risk, rejected⟩ := v
    cases rejected with
    | some ev =>
      -- refused: the books stay as they are
      exact .ok ⟨h.book, rfl, rfl⟩
    | none =>
      have hagree := h.book.plain_apply hT hP hc
      simp only [Except.map, Option.map_none]
      generalize s.engine.apply P c = x at hagree
      generalize s'.engine.apply P (T.command c) = x' at hagree
      cases hagree with
      | error e => exact .error e
      | @ok e e' evs hi =>
        have hmap : (evs.map T.event).map (fun ev => (s.engineSeq + 1, ev)) =
            (evs.map (fun ev => (s.engineSeq + 1, ev))).map T.numbered := by
          rw [List.map_map, List.map_map]
          rfl
        simp only [hmap]
        exact .ok ⟨hi, rfl, rfl⟩

/-! ### What an account is told -/

/-- The events about an account's orders. -/
def repliesTo (a : ℕ) (evs : List (ℕ × Event)) : List (ℕ × Event) :=
  evs.filter (fun e => (eventId e.2).map Prod.fst = some a)

theorem Renaming.eventId_account (ν : Renaming) (ev : Event) :
    (eventId (ν.symmetry.event ev)).map Prod.fst = ((eventId ev).map Prod.fst).map ν.account := by
  cases ev <;> rfl

/-- Events about an account that keeps its names are not renamed. -/
theorem Renaming.event_eq (ν : Renaming) {a : ℕ} (ha : ν.account a = a) (hi : ∀ i, ν.id a i = i) {ev : Event}
    (hev : (eventId ev).map Prod.fst = some a) : ν.symmetry.event ev = ev := by
  cases ev with
  | accepted a' i q =>
    obtain rfl : a' = a := Option.some.inj hev
    simp [Symmetry.event, Renaming.symmetry, ha, hi]
  | rejected a' i reason =>
    obtain rfl : a' = a := Option.some.inj hev
    simp [Symmetry.event, Renaming.symmetry, ha, hi]
  | filled a' i s p q left state =>
    obtain rfl : a' = a := Option.some.inj hev
    simp [Symmetry.event, Renaming.symmetry, ha, hi]
  | cancelled a' i =>
    obtain rfl : a' = a := Option.some.inj hev
    simp [Symmetry.event, Renaming.symmetry, ha, hi]
  | replaced a' i q kept =>
    obtain rfl : a' = a := Option.some.inj hev
    simp [Symmetry.event, Renaming.symmetry, ha, hi]
  | _ => simp [eventId] at hev

theorem Renaming.repliesTo_map (ν : Renaming) {a : ℕ} (ha : ν.account a = a) (hi : ∀ i, ν.id a i = i)
    (evs : List (ℕ × Event)) : repliesTo a (evs.map ν.symmetry.numbered) = repliesTo a evs := by
  have hsame : ∀ e : ℕ × Event, (eventId (ν.symmetry.numbered e).2).map Prod.fst = some a ↔
      (eventId e.2).map Prod.fst = some a := by
    intro e
    have hinj := (Option.map_injective ν.account_inj).eq_iff (a := (eventId e.2).map Prod.fst) (b := some a)
    rw [Option.map_some, ha, ← ν.eventId_account] at hinj
    exact hinj
  unfold repliesTo
  rw [List.filter_map]
  simp only [Function.comp_def, hsame]
  rw [List.map_congr_left (g := fun e => e), List.map_id']
  intro e he
  have he' : (eventId e.2).map Prod.fst = some a := by simpa using (List.mem_filter.1 he).2
  exact Prod.ext rfl (ν.event_eq ha hi he')

/-- **Identifiers are opaque.** For every renaming of the accounts and of each account's orders, a run on the renamed
commands is the run under new names: the same events in the same order with the same numbers, snapshots and mass
cancels among them, the same top of book and the same last trade; if one panics the other does, in the same way. An
account that keeps its names is told the same, whatever names the others use. -/
theorem identifiers_opaque {P : Profile} (hP : P.Total) (config : RiskConfig) (ν : Renaming) {cmds : List Command}
    (hcmds : ∀ c ∈ cmds, c.Checked P) :
    (∀ s evss, (System.new config).runFrom P cmds = .ok (s, evss) →
      ∃ s' evss', (System.new config).runFrom P (cmds.map ν.symmetry.command) = .ok (s', evss') ∧
        evss' = evss.map (List.map (fun e => (e.1, ν.symmetry.event e.2))) ∧
        s'.engine.book.topOfBook = s.engine.book.topOfBook ∧ s'.engine.book.lastTrade = s.engine.book.lastTrade ∧
        ∀ a, ν.account a = a → (∀ i, ν.id a i = i) → evss'.map (repliesTo a) = evss.map (repliesTo a)) ∧
    ∀ panic, (System.new config).runFrom P cmds = .error panic →
      (System.new config).runFrom P (cmds.map ν.symmetry.command) = .error panic := by
  have hagree : Agree (Renamed P ν.symmetry) (List.map (List.map ν.symmetry.numbered))
      ((System.new config).runFrom P cmds) ((System.new config).runFrom P (cmds.map ν.symmetry.command)) :=
    run_agree (fun _ _ _ h hc => h.processCommand hP ν.plain hc) ⟨Images.new P ν.symmetry, rfl, rfl⟩ hcmds
  refine ⟨fun s evss hrun => ?_, fun panic hrun => ?_⟩
  · rw [hrun] at hagree
    obtain ⟨s', hrun', h⟩ := hagree.ok_inv
    refine ⟨s', _, hrun', rfl, h.book.topOfBook ν.plain, h.book.lastTrade ν.plain, fun a ha hi => ?_⟩
    rw [List.map_map]
    exact List.map_congr_left (fun evs _ => ν.repliesTo_map ha hi evs)
  · rw [hrun] at hagree
    exact hagree.error_inv

/-- Account 1 keeps its names; the others and their orders are renumbered. -/
def renumbered : Renaming where
  account a := if a = 1 then 1 else a + 10
  id a i := if a = 1 then i else i + a
  account_inj := by
    intro x y h
    simp only at h
    split at h <;> split at h <;> omega
  id_inj := by
    intro a x y h
    simp only at h
    split at h
    · exact h
    · omega

/-- Accounts 1, 2 and 3 all name their orders 1; renumbered, no two names are the same. -/
theorem identifiers_opaque_renumbered :
    ∃ s evss s' evss', (System.new .default).runFrom .release
        [.newOrder 1 1 .sell 100 5 .limit .gtc 0, .newOrder 2 1 .sell 101 3 .limit .gtc 0,
         .newOrder 2 1 .buy 99 1 .limit .gtc 0, .newOrder 3 1 .buy 101 6 .limit .gtc 0, .snapshot, .massCancel 2,
         .cancelOrder 1 1] = .ok (s, evss) ∧
      (System.new .default).runFrom .release
        [.newOrder 1 1 .sell 100 5 .limit .gtc 0, .newOrder 12 3 .sell 101 3 .limit .gtc 0,
         .newOrder 12 3 .buy 99 1 .limit .gtc 0, .newOrder 13 4 .buy 101 6 .limit .gtc 0, .snapshot, .massCancel 12,
         .cancelOrder 1 1] = .ok (s', evss') ∧
      evss' = evss.map (List.map (fun e => (e.1, renumbered.symmetry.event e.2))) ∧
      s'.engine.book.topOfBook = s.engine.book.topOfBook ∧ evss'.map (repliesTo 1) = evss.map (repliesTo 1) := by
  obtain ⟨⟨s, evss⟩, hrun⟩ := exists_of_isOk (x := (System.new .default).runFrom .release
      [.newOrder 1 1 .sell 100 5 .limit .gtc 0, .newOrder 2 1 .sell 101 3 .limit .gtc 0,
       .newOrder 2 1 .buy 99 1 .limit .gtc 0, .newOrder 3 1 .buy 101 6 .limit .gtc 0, .snapshot, .massCancel 2,
       .cancelOrder 1 1]) (by decide +kernel)
  have hchecked : ∀ c ∈ [Command.newOrder 1 1 .sell 100 5 .limit .gtc 0, .newOrder 2 1 .sell 101 3 .limit .gtc 0,
       .newOrder 2 1 .buy 99 1 .limit .gtc 0, .newOrder 3 1 .buy 101 6 .limit .gtc 0, .snapshot, .massCancel 2,
       .cancelOrder 1 1], c.Decodable := by decide
  obtain ⟨hok, -⟩ := identifiers_opaque Profile.release_total .default renumbered (fun c hc => (hchecked c hc).checked)
  obtain ⟨s', evss', hrun', hevs, htop, -, htold⟩ := hok s evss hrun
  exact ⟨s, evss, s', evss', hrun, hrun', hevs, htop, htold 1 rfl (fun _ => rfl)⟩

end MatchingEngine
