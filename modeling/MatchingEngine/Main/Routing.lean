import MatchingEngine.Gateway.Routing

/-!
# Reports reach their connection

* `routing_correct`: a report about the command's own order, and a snapshot, goes to the
  connection that sent the command; a fill or a cancel of any other order goes to the
  connection that last put that order to rest or amended it.
-/

namespace MatchingEngine

namespace Matching

variable {P : Profile} {connId : ConnId} {owner : Key → Option ConnId}

/-- **One command**: its events find the table right, and leave it so. -/
theorem follows_process (hP : P.Total) (connId : ConnId) {s s' : System} {cmd : Command} {evs : List (ℕ × Event)}
    {r : Ref} {table : RestingConn} (hs : Sim P ⊤ s.engine.book r) (hc : cmd.Decodable)
    (h : s.processCommand P cmd = .ok (s', evs)) (hk : Knows owner table r) :
    ∃ r', Sim P ⊤ s'.engine.book r' ∧ Ref.Answers cmd (evs.map Prod.snd) ∧
      Follows connId (commandSelfId cmd) owner table (evs.map Prod.snd) ∧
      Knows (reowned connId owner (evs.map Prod.snd))
        ((evs.map Prod.snd).foldl (after connId (commandSelfId cmd)) table) r' := by
  rcases System.processCommand_gate h with ⟨ev, hg, he, rfl⟩ | ⟨-, evs', ha, rfl⟩
  · -- rejected by the gate: neither the book nor the table moves
    obtain ⟨a, i, reason, rfl, hself⟩ := RiskState.preApplyCheck_answers hg
    refine ⟨r, he ▸ hs, Ref.answers_singleton hself.symm, follows_own ?_, hk⟩
    intro ev hev
    rw [List.mem_singleton.1 hev, hself]
    exact Or.inr rfl
  · obtain ⟨rfl, hs'⟩ := hs.applied hP hc ha
    rw [System.map_snd_numbered]
    exact ⟨_, hs', hs.wf.apply_answers P cmd, hs.wf.follows_apply connId hc.checked hk⟩

/-- The connection that last put each order to rest or amended it, from what the thread sent back. -/
def lastHolder (history : List ((ConnId × Command) × Dispatched)) : Key → Option ConnId :=
  history.foldl (fun owner turn => reowned turn.1.1 owner (turn.2.returns.map (fun x => x.2.2))) (fun _ => none)

/-- Market data commits no order. -/
theorem reowned_returns {evs : List (ℕ × Event)} {out : Dispatched}
    (h : out.returns.map Prod.snd = evs.filter (fun e => !e.2.isMarketData)) :
    reowned connId owner (evs.map Prod.snd) = reowned connId owner (out.returns.map (fun x => x.2.2)) := by
  have hret : out.returns.map (fun x => x.2.2) = (evs.filter (fun e => !e.2.isMarketData)).map Prod.snd := by
    rw [← h, List.map_map]
    rfl
  have hany : ∀ k, (evs.map Prod.snd).any (Event.commits k) =
      ((evs.filter (fun e => !e.2.isMarketData)).map Prod.snd).any (Event.commits k) := by
    intro k
    rw [List.any_map, List.any_map, List.any_filter]
    congr 1
    funext e
    obtain ⟨seq, ev⟩ := e
    cases ev <;> simp [Event.isMarketData, Event.commits]
  funext k
  unfold reowned
  rw [hret, hany]

/-- The book stands for a reference state whose owners the table knows. -/
def Tracks (P : Profile) (owner : Key → Option ConnId) (t : Matching) : Prop :=
  ∃ r, Sim P ⊤ t.system.engine.book r ∧ Knows owner t.restingConn r

theorem tracks_new (P : Profile) (config : RiskConfig) (recorder : Option (List UInt8)) :
    Tracks P (fun _ => none) (new config recorder) :=
  ⟨Ref.new, Sim.new P ⊤, fun _ hq => absurd rfl hq⟩

/-- **One turn** keeps the table in step with the owners. -/
theorem Tracks.step (hP : P.Total) {t t' : Matching} {cmd : Command} {out : Dispatched} (h : Tracks P owner t)
    (hc : cmd.Decodable) (hstep : t.step P (connId, cmd) = .ok (t', out)) :
    Tracks P (reowned connId owner (out.returns.map (fun x => x.2.2))) t' := by
  obtain ⟨r, hs, hk⟩ := h
  obtain ⟨evs, hp, htable, hall, -⟩ := step_cases hstep
  obtain ⟨r', hs', -, -, hk'⟩ := follows_process hP connId hs hc hp hk
  refine ⟨r', hs', ?_⟩
  rw [htable, ← reowned_returns hall]
  exact hk'

/-- **After every run the table knows who last committed each resting order.** -/
theorem tracks_run (hP : P.Total) {config : RiskConfig} {recorder : Option (List UInt8)}
    {inputs : List (ConnId × Command)} (hin : ∀ x ∈ inputs, x.2.Decodable) {t : Matching} {outs : List Dispatched}
    (hrun : run (step P) (new config recorder) inputs = .ok (t, outs)) : Tracks P (lastHolder (inputs.zip outs)) t := by
  refine run_trace (f := fun owner x out => reowned x.1 owner (out.returns.map (fun x => x.2.2)))
    (C := fun _ x => x.2.Decodable) (Tracks P) ?_ (tracks_new P config recorder) (along_of_forall hin) hrun
  intro owner t x t' out h hc hstep
  exact h.step hP hc hstep

end Matching

open Matching

/-- **Routing is correct.** In any interleaving of commands, each event but market data goes back to one
connection: the sender, if it is part of a snapshot or about the command's own order, as every `Accepted`,
`Rejected` and `Replaced` is; else the connection that last put its order to rest or amended it. The table
has an entry for every such order when its event passes, so the fallback is not taken. -/
theorem routing_correct {P : Profile} (hP : P.Total) (config : RiskConfig) (recorder : Option (List UInt8))
    {inputs : List (ConnId × Command)} (hin : ∀ x ∈ inputs, x.2.Decodable) {t : Matching} {outs : List Dispatched}
    (hrun : run (step P) (new config recorder) inputs = .ok (t, outs))
    {connId : ConnId} {cmd : Command} (hcmd : cmd.Decodable) {t' : Matching} {out : Dispatched}
    (hstep : t.step P (connId, cmd) = .ok (t', out)) :
    ∃ evs, t.system.processCommand P cmd = .ok (t'.system, evs) ∧
      out.returns.map Prod.snd = evs.filter (fun e => !e.2.isMarketData) ∧
      (∀ dest seq ev, (dest, seq, ev) ∈ out.returns →
        (ev.isSnapshot = true → dest = connId) ∧
        (ev.isAnswer = true → eventId ev = commandSelfId cmd) ∧
        ∀ k, eventId ev = some k → if commandSelfId cmd = some k then dest = connId
          else lastHolder (inputs.zip outs) k = some dest) ∧
      ∀ pre seq ev post k, evs = pre ++ (seq, ev) :: post → eventId ev = some k → commandSelfId cmd ≠ some k →
        ∃ table sent, pre.foldlM (emit connId (commandSelfId cmd)) (t.restingConn, ⟨[], []⟩) = .ok (table, sent) ∧
          k ∈ table := by
  obtain ⟨r, hs, hk⟩ := tracks_run hP hin hrun
  obtain ⟨evs, hp, -, hall, hsent, -⟩ := step_cases hstep
  obtain ⟨-, -, hans, hfol, -⟩ := follows_process hP connId hs hcmd hp hk
  -- an event about another order finds its holder in the table as the events before it left it
  have hfinds : ∀ {pre seq ev post k}, evs = pre ++ (seq, ev) :: post → eventId ev = some k →
      commandSelfId cmd ≠ some k → ∃ c, lastHolder (inputs.zip outs) k = some c ∧
        ((pre.map Prod.snd).foldl (after connId (commandSelfId cmd)) t.restingConn).lookup k = some c := by
    intro pre seq ev post k heq hid hself
    rw [heq, List.map_append, List.map_cons] at hfol
    exact (hfol.split hid hself).2
  refine ⟨evs, hp, hall, ?_, ?_⟩
  · intro dest seq ev hx
    obtain ⟨pre, post, heq, (hdest : dest = destination _ _ _ ev)⟩ := hsent _ hx
    have hmem : ev ∈ evs.map Prod.snd := List.mem_map.2 ⟨(seq, ev), by rw [heq]; simp, rfl⟩
    refine ⟨fun hsnap => ?_, hans ev hmem, fun k hid => ?_⟩
    · rw [hdest]
      cases ev <;> first
        | rfl
        | cases hsnap
    · have hroute : dest = route connId (commandSelfId cmd)
          ((pre.map Prod.snd).foldl (after connId (commandSelfId cmd)) t.restingConn) k := by
        rw [hdest]
        unfold destination
        rw [hid]
      by_cases hself : commandSelfId cmd = some k
      · rw [if_pos hself, hroute, hself]
        exact route_self _ _
      · obtain ⟨c, hown, hl⟩ := hfinds heq hid hself
        rw [if_neg hself, hroute, route_other hself hl]
        exact hown
  · intro pre seq ev post k heq hid hself
    obtain ⟨c, -, hl⟩ := hfinds heq hid hself
    obtain ⟨sent, hpre, -⟩ := @foldlM_emit connId (commandSelfId cmd) pre t.restingConn ⟨[], []⟩
    exact ⟨_, sent, hpre, Finmap.mem_of_lookup_eq_some hl⟩

/-- An order amended from another connection: its fill goes there, not to the one that sent it first. -/
theorem routing_correct_amended :
    ∃ t outs t' out,
      run (step .release) (new .default none) [(1, .newOrder 1 1 .sell 100 5 .limit .gtc 0), (2, .cancelReplace 1 1 100 4)] =
        .ok (t, outs) ∧
      t.step .release (3, .newOrder 2 1 .buy 100 4 .limit .gtc 0) = .ok (t', out) ∧
      ∀ dest seq ev, (dest, seq, ev) ∈ out.returns → ∀ k, eventId ev = some k →
        if commandSelfId (.newOrder 2 1 .buy 100 4 .limit .gtc 0) = some k then dest = 3
        else lastHolder (List.zip
          [(1, .newOrder 1 1 .sell 100 5 .limit .gtc 0), (2, .cancelReplace 1 1 100 4)] outs) k = some dest := by
  obtain ⟨⟨t, outs⟩, hrun, hok⟩ := exists_ok_of_decide
    (x := run (step .release) (new .default none)
      [(1, .newOrder 1 1 .sell 100 5 .limit .gtc 0), (2, .cancelReplace 1 1 100 4)])
    (p := fun r => (r.1.step .release (3, .newOrder 2 1 .buy 100 4 .limit .gtc 0)).isOk = true) (by decide +kernel)
  obtain ⟨⟨t', out⟩, hstep⟩ := exists_of_isOk hok
  refine ⟨t, outs, t', out, hrun, hstep, fun dest seq ev hx => ?_⟩
  obtain ⟨-, -, -, hdest, -⟩ := routing_correct Profile.release_total .default none (by decide) hrun (by decide) hstep
  exact (hdest dest seq ev hx).2.2

end MatchingEngine
