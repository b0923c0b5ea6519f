import MatchingEngine.Risk.Model
import MatchingEngine.Ref.Step
import MatchingEngine.Proof.Refine

/-!
# What a processed command does

* `processCommand_cases`: a command is rejected by the gate and the engine is left
  alone, or it goes to the engine.
* `newOrderCheck_limit`, `killSwitchCheck_amend`: what a command that went through has
  passed.
-/

namespace MatchingEngine

namespace RiskState

variable {P : Profile} {s s' : RiskState} {cmd : Command} {b : Book}

/-- The gate rejects with a reject event. -/
theorem newOrderCheck_quiet {config : RiskConfig} {a i : ℕ} {side : Side} {p q : ℕ} {k : OrderKind} {t : Tif}
    {ev : Event} (h : newOrderCheck P config a i side p q k t b = .ok (some ev)) :
    ∃ reason, ev = .rejected a i reason := by
  unfold newOrderCheck at h
  simp only [bind, Except.bind, pure, Except.pure] at h
  repeat' split at h
  all_goals first
    | exact ⟨_, (Option.some.inj (Except.ok.inj h)).symm⟩
    | simp at h

theorem killSwitchCheck_quiet {ev : Event} (h : killSwitchCheck cmd b = some ev) :
    ∃ a i reason, ev = .rejected a i reason := by
  unfold killSwitchCheck at h
  repeat' split at h
  all_goals first
    | exact ⟨_, _, _, (Option.some.inj h).symm⟩
    | simp at h

/-- The gate never gives the PostOnly reason. -/
theorem newOrderCheck_reason {config : RiskConfig} {a i : ℕ} {side : Side} {p q : ℕ} {k : OrderKind} {t : Tif}
    {a' i' : ℕ} {reason : RejectReason} (h : newOrderCheck P config a i side p q k t b = .ok (some (.rejected a' i' reason))) :
    reason ≠ .wouldCross := by
  unfold newOrderCheck at h
  simp only [bind, Except.bind, pure, Except.pure] at h
  rintro rfl
  repeat' split at h
  all_goals simp at h

theorem killSwitchCheck_reason {a i : ℕ} {reason : RejectReason}
    (h : killSwitchCheck cmd b = some (.rejected a i reason)) :
    reason ≠ .wouldCross := by
  unfold killSwitchCheck at h
  rintro rfl
  repeat' split at h
  all_goals simp at h

/-- A limit order that went through had its account's notional, with itself, within the cap. -/
theorem newOrderCheck_limit {config : RiskConfig} {a i : ℕ} {side : Side} {p q : ℕ} {t : Tif}
    (h : newOrderCheck P config a i side p q .limit t b = .ok none) :
    ∃ v, P.store128 ((b.accountNotional a : ℤ) + (p * q : ℕ)) = .ok v ∧ v ≤ config.maxNotional := by
  unfold newOrderCheck at h
  simp only [bind, Except.bind] at h
  cases hv : P.store128 ((b.accountNotional a : ℤ) + (p * q : ℕ)) with
  | error e =>
    rw [hv] at h
    split at h <;> simp at h
  | ok v =>
    refine ⟨v, rfl, ?_⟩
    by_contra hgt
    rw [hv] at h
    simp only [if_pos (show v > config.maxNotional by omega)] at h
    split at h <;> simp at h

/-- An order that may rest and went through had its account below the open-order cap. -/
theorem newOrderCheck_count {config : RiskConfig} {a i : ℕ} {side : Side} {p q : ℕ} {t : Tif}
    (h : newOrderCheck P config a i side p q .limit t b = .ok none) (ht : t = .gtc ∨ t = .postOnly) :
    b.accountOpenOrderCount a < config.maxOpenOrders := by
  by_contra hlt
  have hge : config.maxOpenOrders ≤ b.accountOpenOrderCount a := by omega
  unfold newOrderCheck at h
  rcases ht with rfl | rfl
  · simp [hge] at h
  · simp [hge] at h

/-- A limit order that went through had its price within the band, if there was a reference. -/
theorem newOrderCheck_band {config : RiskConfig} {a i : ℕ} {side : Side} {p q : ℕ} {t : Tif}
    (h : newOrderCheck P config a i side p q .limit t b = .ok none) {reference : ℕ}
    (href : priceBandReference P b = .ok (some reference)) :
    withinBand P config.priceBandPct reference p = .ok true := by
  obtain ⟨v, hv, hle⟩ := newOrderCheck_limit h
  unfold newOrderCheck at h
  simp only [bind, Except.bind, hv, if_neg (show ¬ v > config.maxNotional by omega), href] at h
  split at h
  · simp at h
  · cases hw : withinBand P config.priceBandPct reference p with
    | error e => simp [hw] at h
    | ok w =>
      cases w with
      | true => rfl
      | false => simp [hw] at h

/-- An amend the kill switch lets through stays in place. -/
theorem killSwitchCheck_amend {a i p q p₀ q₀ : ℕ} (h : killSwitchCheck (.cancelReplace a i p q) b = none)
    (hs : b.restingOrderSnapshot a i = some (p₀, q₀)) : p = p₀ ∧ q ≤ q₀ := by
  by_contra hne
  have hnew : p ≠ p₀ ∨ q > q₀ := by
    by_cases hp : p = p₀
    · right
      by_contra hq
      exact hne ⟨hp, by omega⟩
    · exact Or.inl hp
  simp only [killSwitchCheck, hs, if_pos hnew] at h
  simp at h

/-- Commands other than new orders have nothing but the switch to pass. -/
theorem preApplyCheck_other (hn : ∀ a i side p q k t ts, cmd ≠ .newOrder a i side p q k t ts)
    (hk : ∀ engaged, cmd ≠ .killSwitch engaged) :
    s.preApplyCheck P cmd b = .ok (s, if s.killSwitchEngaged then killSwitchCheck cmd b else none) := by
  unfold preApplyCheck
  cases cmd with
  | killSwitch engaged => exact absurd rfl (hk engaged)
  | newOrder a i side p q k t ts => exact absurd rfl (hn a i side p q k t ts)
  | _ =>
    simp only
    split
    · rename_i heq
      rw [heq]
    · rename_i heq
      rw [heq]

/-- With the switch off, a new order meets its own checks. -/
theorem preApplyCheck_newOrder {a i p q ts : ℕ} {side : Side} {k : OrderKind} {t : Tif} {r : Option Event}
    (hk : ¬ s.killSwitchEngaged = true) (h : s.preApplyCheck P (.newOrder a i side p q k t ts) b = .ok (s', r)) :
    s' = s ∧ newOrderCheck P s.config a i side p q k t b = .ok r := by
  simp only [preApplyCheck, hk, Bool.false_eq_true, if_false] at h
  obtain ⟨v, hv, hret⟩ := exists_of_bind_ok h
  obtain ⟨rfl, rfl⟩ := Prod.mk.inj (Except.ok.inj hret)
  exact ⟨rfl, hv⟩

/-- What the gate returns, by the kind of command. -/
theorem preApplyCheck_cases {r : Option Event} (h : s.preApplyCheck P cmd b = .ok (s', r)) :
    s'.config = s.config ∧ (∀ ev, r = some ev → ∃ a i reason, ev = .rejected a i reason) ∧
      (r = none → (s.killSwitchEngaged = true → killSwitchCheck cmd b = none) ∧
        ∀ a i side p q k t ts, cmd = .newOrder a i side p q k t ts →
          newOrderCheck P s.config a i side p q k t b = .ok none) := by
  -- a switch command never meets the switch
  cases cmd with
  | killSwitch engaged =>
    simp only [preApplyCheck, Except.ok.injEq, Prod.mk.injEq] at h
    obtain ⟨rfl, rfl⟩ := h
    exact ⟨rfl, by simp, fun _ => ⟨fun _ => rfl, by simp⟩⟩
  | newOrder a i side p q k t ts =>
    by_cases hk : s.killSwitchEngaged
    · simp only [preApplyCheck, hk, if_true, killSwitchCheck, Except.ok.injEq, Prod.mk.injEq] at h
      obtain ⟨rfl, rfl⟩ := h
      exact ⟨rfl, fun ev he => ⟨a, i, _, (Option.some.inj he).symm⟩, by simp⟩
    · obtain ⟨rfl, hn⟩ := preApplyCheck_newOrder hk h
      refine ⟨rfl, ?_, ?_⟩
      · intro ev he
        obtain ⟨reason, hr⟩ := newOrderCheck_quiet (he ▸ hn)
        exact ⟨a, i, reason, hr⟩
      · intro hv
        refine ⟨fun hh => absurd hh hk, ?_⟩
        intro a' i' side' p' q' k' t' ts' he
        simp only [Command.newOrder.injEq] at he
        obtain ⟨rfl, rfl, rfl, rfl, rfl, rfl, rfl, rfl⟩ := he
        rw [hn, hv]
  | _ =>
    rw [preApplyCheck_other (by simp) (by simp), Except.ok.injEq, Prod.mk.injEq] at h
    obtain ⟨rfl, rfl⟩ := h
    refine ⟨rfl, fun ev he => ?_, fun hnone => ⟨fun hk => ?_, by simp⟩⟩
    · split at he
      · exact killSwitchCheck_quiet he
      · simp at he
    · rwa [if_pos hk] at hnone

/-- A resting order that went through met no engaged switch, and its account had room for one more. -/
theorem preApplyCheck_new {a i : ℕ} {side : Side} {p q : ℕ} {t : Tif} {ts : ℕ} (ht : t = .gtc ∨ t = .postOnly)
    (h : s.preApplyCheck P (.newOrder a i side p q .limit t ts) b = .ok (s', none)) :
    s.killSwitchEngaged = false ∧ b.accountOpenOrderCount a < s.config.maxOpenOrders := by
  obtain ⟨-, -, hpass⟩ := preApplyCheck_cases h
  obtain ⟨hswitch, hnew⟩ := hpass rfl
  refine ⟨?_, newOrderCheck_count (hnew _ _ _ _ _ _ _ _ rfl) ht⟩
  cases hk : s.killSwitchEngaged with
  | false => rfl
  | true => simpa [killSwitchCheck] using hswitch hk

theorem preApplyCheck_reason {a i : ℕ} {reason : RejectReason}
    (h : s.preApplyCheck P cmd b = .ok (s', some (.rejected a i reason))) : reason ≠ .wouldCross := by
  have hswitch : ∀ c, (if s.killSwitchEngaged then killSwitchCheck c b else none) = some (.rejected a i reason) →
      reason ≠ .wouldCross := by
    intro c hc
    split at hc
    · exact killSwitchCheck_reason hc
    · simp at hc
  unfold preApplyCheck at h
  simp only [bind, Except.bind, pure, Except.pure] at h
  split at h
  · simp at h
  · split at h
    · rename_i ev hev
      obtain rfl : ev = .rejected a i reason := by simpa using (Prod.mk.inj (Except.ok.inj h)).2
      exact hswitch _ hev
    · split at h
      · split at h
        · simp at h
        · rename_i v hv
          obtain rfl : v = some (.rejected a i reason) := (Prod.mk.inj (Except.ok.inj h)).2
          exact newOrderCheck_reason hv
      · simp at h

/-- The gate panics only in the checks of a new order. -/
theorem preApplyCheck_ok (h : ∀ a i side p q k t ts, cmd = .newOrder a i side p q k t ts →
      ∃ v, newOrderCheck P s.config a i side p q k t b = .ok v) : ∃ s' v, s.preApplyCheck P cmd b = .ok (s', v) := by
  unfold preApplyCheck
  cases cmd with
  | killSwitch e => exact ⟨_, _, rfl⟩
  | newOrder a i side p q k t ts =>
    obtain ⟨v, hv⟩ := h a i side p q k t ts rfl
    simp only [hv, bind, Except.bind, pure, Except.pure]
    split
    · exact ⟨_, _, rfl⟩
    · exact ⟨_, _, rfl⟩
  | _ =>
    simp only
    split
    · exact ⟨_, _, rfl⟩
    · exact ⟨_, _, rfl⟩

theorem priceBandReference_release (b : Book) : ∃ v, priceBandReference .release b = .ok v := by
  unfold priceBandReference
  split
  · exact ⟨_, rfl⟩
  · split
    · exact ⟨_, rfl⟩
    · exact ⟨_, rfl⟩

/-- Sums that wrap never panic: **in the release build the gate always decides.** -/
theorem preApplyCheck_release (s : RiskState) (cmd : Command) (b : Book) :
    ∃ s' v, s.preApplyCheck .release cmd b = .ok (s', v) := by
  refine preApplyCheck_ok fun a i side p q k t ts _ => ?_
  have hstore : ∀ x : ℤ, Profile.release.store128 x = .ok (x % 2 ^ 128).toNat := fun _ => rfl
  obtain ⟨reference, href⟩ := priceBandReference_release b
  unfold newOrderCheck withinBand
  simp only [hstore, href, bind, Except.bind, pure, Except.pure]
  repeat' split
  all_goals exact ⟨_, rfl⟩

end RiskState

namespace System

variable {P : Profile} {s s' : System} {cmd : Command} {evs : List (ℕ × Event)} {risk : RiskState}

theorem processCommand_reject {ev : Event} (h : s.risk.preApplyCheck P cmd s.engine.book = .ok (risk, some ev)) :
    s.processCommand P cmd = .ok (⟨s.engine, risk, s.engineSeq + 1⟩, [(s.engineSeq + 1, ev)]) := by
  simp only [processCommand, h, bind, Except.bind, pure, Except.pure]

theorem processCommand_apply {e : Engine} {evs : List Event}
    (h : s.risk.preApplyCheck P cmd s.engine.book = .ok (risk, none)) (ha : s.engine.apply P cmd = .ok (e, evs)) :
    s.processCommand P cmd =
      .ok (⟨e, risk, s.engineSeq + 1⟩, evs.map (fun ev => (s.engineSeq + 1, ev))) := by
  simp only [processCommand, h, ha, bind, Except.bind, pure, Except.pure]

/-- What the gate decided, and what came of it. -/
theorem processCommand_gate (h : s.processCommand P cmd = .ok (s', evs)) :
    (∃ ev, s.risk.preApplyCheck P cmd s.engine.book = .ok (s'.risk, some ev) ∧ s'.engine = s.engine ∧
      evs = [(s.engineSeq + 1, ev)]) ∨
    (s.risk.preApplyCheck P cmd s.engine.book = .ok (s'.risk, none) ∧
      ∃ evs', s.engine.apply P cmd = .ok (s'.engine, evs') ∧ evs = evs'.map (fun ev => (s.engineSeq + 1, ev))) := by
  unfold processCommand at h
  simp only [bind, Except.bind, pure, Except.pure] at h
  cases hg : s.risk.preApplyCheck P cmd s.engine.book with
  | error e => simp [hg] at h
  | ok v =>
    obtain ⟨risk, rej⟩ := v
    cases rej with
    | some ev =>
      simp only [hg, Except.ok.injEq, Prod.mk.injEq] at h
      obtain ⟨rfl, rfl⟩ := h
      exact Or.inl ⟨ev, rfl, rfl, rfl⟩
    | none =>
      cases ha : s.engine.apply P cmd with
      | error e => simp [hg, ha] at h
      | ok v =>
        obtain ⟨engine, evs'⟩ := v
        simp only [hg, ha, Except.ok.injEq, Prod.mk.injEq] at h
        obtain ⟨rfl, rfl⟩ := h
        exact Or.inr ⟨rfl, evs', rfl, rfl⟩

theorem processCommand_seq (h : s.processCommand P cmd = .ok (s', evs)) : s'.engineSeq = s.engineSeq + 1 := by
  unfold processCommand at h
  simp only [bind, Except.bind, pure, Except.pure] at h
  repeat' split at h
  all_goals
    cases h
    try rfl

/-- **A command is rejected by the gate, or goes to the engine.** -/
theorem processCommand_cases (h : s.processCommand P cmd = .ok (s', evs)) :
    s'.risk.config = s.risk.config ∧ s'.engineSeq = s.engineSeq + 1 ∧
      ((s'.engine = s.engine ∧ ∃ a i reason, evs = [(s.engineSeq + 1, .rejected a i reason)]) ∨
       (s.risk.preApplyCheck P cmd s.engine.book = .ok (s'.risk, none) ∧
        ∃ evs', s.engine.apply P cmd = .ok (s'.engine, evs') ∧
          evs = evs'.map (fun ev => (s.engineSeq + 1, ev)))) := by
  have hseq := processCommand_seq h
  rcases processCommand_gate h with ⟨ev, hg, he, hevs⟩ | ⟨hg, evs', ha, hevs⟩
  · obtain ⟨hcfg, hrej, -⟩ := RiskState.preApplyCheck_cases hg
    obtain ⟨a, i, reason, rfl⟩ := hrej ev rfl
    exact ⟨hcfg, hseq, Or.inl ⟨he, a, i, reason, hevs⟩⟩
  · exact ⟨(RiskState.preApplyCheck_cases hg).1, hseq, Or.inr ⟨hg, evs', ha, hevs⟩⟩

/-- The events of a command, without its number. -/
theorem map_snd_numbered (seq : ℕ) (evs : List Event) : (evs.map (fun ev => (seq, ev))).map Prod.snd = evs := by
  rw [List.map_map]
  exact List.map_id evs

/-- **Invariants behind the gate**: what every command that passes it keeps of the reference state holds after
every run. -/
theorem run_ref (hP : P.Total) {config : RiskConfig} {C : System → Command → Prop} (Inv : Ref → Prop)
    (hstep : ∀ s risk r c, s.risk.config = config → Sim P ⊤ s.engine.book r →
      s.risk.preApplyCheck P c s.engine.book = .ok (risk, none) → c.Decodable → C s c → Inv r → Inv (r.apply P c).1)
    (h0 : Inv Ref.new) {cmds : List Command}
    (hC : Along (processCommand P) (fun s c => c.Decodable ∧ C s c) (System.new config) cmds)
    {evss : List (List (ℕ × Event))} (hrun : (System.new config).runFrom P cmds = .ok (s, evss)) :
    s.risk.config = config ∧ ∃ r, Sim P ⊤ s.engine.book r ∧ Inv r := by
  refine run_inv (fun s : System => s.risk.config = config ∧ ∃ r, Sim P ⊤ s.engine.book r ∧ Inv r) ?_
    ⟨rfl, Ref.new, Sim.new P ⊤, h0⟩ hC hrun
  rintro s c s' evs ⟨hcfg, r, hs, hinv⟩ ⟨hc, hcond⟩ hs'
  obtain ⟨hcfg', -, ⟨he, -⟩ | ⟨hg, evs', ha, -⟩⟩ := processCommand_cases hs'
  · exact ⟨hcfg'.trans hcfg, r, he ▸ hs, hinv⟩
  · exact ⟨hcfg'.trans hcfg, _, (hs.applied hP hc ha).2, hstep s _ r c hcfg hs hg hc hcond hinv⟩

/-- Behind the gate too, runs over checked commands keep a simulated state. -/
theorem sim_of_checked (hP : P.Total) {config : RiskConfig} {cmds : List Command} (hcmds : ∀ c ∈ cmds, c.Checked P)
    {evss : List (List (ℕ × Event))} (hrun : (System.new config).runFrom P cmds = .ok (s, evss)) :
    ∃ r, Sim P ⊤ s.engine.book r := by
  refine run_inv (C := fun _ c => c.Checked P) (fun s : System => ∃ r, Sim P ⊤ s.engine.book r) ?_
    ⟨_, Sim.new P ⊤⟩ (along_of_forall hcmds) hrun
  rintro s c s' evs ⟨r, hs⟩ hc hstep
  obtain ⟨-, -, ⟨he, -⟩ | ⟨-, evs', ha, -⟩⟩ := processCommand_cases hstep
  · exact ⟨r, he ▸ hs⟩
  · exact ⟨_, (hs.apply_of_ok hc (Fits.of_total hP _) ha).2⟩

/-- The same over decodable commands. -/
theorem sim_of_run (hP : P.Total) {config : RiskConfig} {cmds : List Command} (hcmds : ∀ c ∈ cmds, c.Decodable)
    {evss : List (List (ℕ × Event))} (hrun : (System.new config).runFrom P cmds = .ok (s, evss)) :
    ∃ r, Sim P ⊤ s.engine.book r :=
  sim_of_checked hP (fun c hc => (hcmds c hc).checked) hrun

end System

end MatchingEngine
