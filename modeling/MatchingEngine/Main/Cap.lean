import MatchingEngine.Risk.Limits

/-!
# The notional cap over runs

`gross_notional_capped`: as long as every amend of a resting order respects the cap and
no sum the gate forms for a new order leaves the `u128` range, no account's gross notional
ever exceeds the cap. The gate itself has no check on amends, and a cancel-replace takes an account
over the cap (`amend_exceeds_cap`).
-/

namespace MatchingEngine

/-- **The notional cap holds in every reachable state** of a run whose amends respect it. -/
theorem gross_notional_capped (config : RiskConfig) {cmds : List Command}
    (hcmds : Along (System.processCommand .release)
      (fun s c => c.Decodable ∧ s.SumInRange c ∧ s.AmendWithinCap c) (System.new config) cmds)
    {s : System} {evss : List (List (ℕ × Event))}
    (hrun : (System.new config).runFrom .release cmds = .ok (s, evss)) :
    ∀ a, s.engine.book.grossNotional a ≤ config.maxNotional := by
  obtain ⟨-, r, hs, hcap⟩ := System.run_ref Profile.release_total (fun r => ∀ a, r.notional a ≤ config.maxNotional)
    (by
      rintro s risk r c rfl hs hgate hc ⟨hsum, hamend⟩ hcap
      exact hs.capped Profile.release_faithful hgate (r.did .release c) hcap hsum hamend)
    (fun a => Nat.zero_le _) hcmds hrun
  intro a
  rw [hs.grossNotional]
  exact hcap a

/-- An amend up to the cap, and one more order the gate then turns away. -/
theorem gross_notional_capped_amend :
    ∃ s evss, (System.new .default).runFrom .release
        [.newOrder 1 1 .sell 100 5 .limit .gtc 0, .cancelReplace 1 1 100 1000000,
         .newOrder 1 2 .sell 101 1 .limit .gtc 0] = .ok (s, evss) ∧
      s.engine.book.grossNotional 1 = 100000000 ∧ ∀ a, s.engine.book.grossNotional a ≤ 100000000 := by
  obtain ⟨⟨s, evss⟩, hrun, hone⟩ := exists_ok_of_decide (x := (System.new .default).runFrom .release
    [.newOrder 1 1 .sell 100 5 .limit .gtc 0, .cancelReplace 1 1 100 1000000,
     .newOrder 1 2 .sell 101 1 .limit .gtc 0]) (p := fun v => v.1.engine.book.grossNotional 1 = 100000000)
    (by decide +kernel)
  exact ⟨s, evss, hrun, hone, gross_notional_capped .default (by decide +kernel) hrun⟩

/-- **An amend takes an account over the cap**: one resting order of 5 lots, amended to two million. -/
theorem amend_exceeds_cap :
    (∀ c ∈ [Command.newOrder 1 1 .sell 100 5 .limit .gtc 0, .cancelReplace 1 1 100 2000000], c.Decodable) ∧
    ∃ s evss, (System.new .default).runFrom .release
        [.newOrder 1 1 .sell 100 5 .limit .gtc 0, .cancelReplace 1 1 100 2000000] = .ok (s, evss) ∧
      ¬ s.engine.book.grossNotional 1 ≤ RiskConfig.default.maxNotional := by
  refine ⟨by decide, ?_⟩
  obtain ⟨⟨s, evss⟩, hrun, hone⟩ := exists_ok_of_decide (x := (System.new .default).runFrom .release
    [.newOrder 1 1 .sell 100 5 .limit .gtc 0, .cancelReplace 1 1 100 2000000])
    (p := fun v => ¬ v.1.engine.book.grossNotional 1 ≤ RiskConfig.default.maxNotional) (by decide +kernel)
  exact ⟨s, evss, hrun, hone⟩

end MatchingEngine
