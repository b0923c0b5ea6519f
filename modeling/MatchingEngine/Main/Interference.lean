import MatchingEngine.Main.Progress

/-!
# Market data interferes with nothing

Market data is offered with `try_send` and fanned out on threads of its own, each subscriber has its own
queue, and a write that fails drops that subscriber alone. So subscribers, fast, slow or broken, change
nothing for anybody else (`market_data_never_interferes`): a run of the daemon without all the steps of
the market-data threads, or without the writes of any subscribers, one or many, is a run too, in which
every other thread does what it did.

* `Daemon.Alike`: two daemons that differ in their market data only; `Daemon.Alike.step`: they take the
  same steps.
-/

namespace MatchingEngine

/-- A step of the market-data threads. -/
def DaemonAct.isMarketData : DaemonAct → Bool
  | .subscribe => true
  | .fanOut => true
  | .write _ _ => true
  | _ => false

/-- A step of the writer of one of these subscribers. -/
def DaemonAct.isWriteOf (gone : SubscriberId → Bool) : DaemonAct → Bool
  | .write id _ => gone id
  | _ => false

theorem DaemonAct.isWriteOf_eq {gone : SubscriberId → Bool} {act : DaemonAct} (h : act.isWriteOf gone = true) :
    ∃ id ok, act = .write id ok ∧ gone id = true := by
  cases act with
  | write id ok => exact ⟨id, ok, rfl, h⟩
  | _ => cases h

/-- What happened away from the market-data threads. -/
def Obs.isOrderEntry : Obs → Bool
  | .fed _ => false
  | _ => true

/-- What happened away from their writers. -/
def Obs.isNoWriteOf (gone : SubscriberId → Bool) : Obs → Bool
  | .fed (.write id _) => !gone id
  | _ => true

namespace Daemon

variable {k : ChannelCapacities} {P : Profile} {F : Feed → Feed → Prop} {d d' e : Daemon k} {act : DaemonAct} {o : Obs}

/-- The same daemon, with market data related by `F`. -/
def Alike (F : Feed → Feed → Prop) (d e : Daemon k) : Prop := ∃ feed, e = { d with feed := feed } ∧ F d.feed feed

/-- **Daemons that differ in their market data take the same steps**, if their market data does. -/
theorem Alike.step (h : Alike F d e) (hstep : d.step P act = .ok (d', o))
    (hoffer : ∀ (f g : Feed) (evs : List Event) (f' : Feed) (us : List Unit), F f g →
      run (Feed.step k.marketData) f (evs.map .offer) = .ok (f', us) →
      ∃ g' us', run (Feed.step k.marketData) g (evs.map .offer) = .ok (g', us') ∧ F f' g')
    (hfeed : ∀ (f g : Feed) (fact : FeedAct) (f' : Feed) (u : Unit), F f g → o = .fed fact →
      f.step k.marketData fact = .ok (f', u) → ∃ g' u', g.step k.marketData fact = .ok (g', u') ∧ F f' g') :
    ∃ e', e.step P act = .ok (e', o) ∧ Alike F d' e' := by
  obtain ⟨feed, rfl, hF⟩ := h
  cases step_cases hstep with
  | connected registered =>
    cases registered
    exact ⟨_, rfl, feed, rfl, hF⟩
  | dropped => exact ⟨_, rfl, feed, rfl, hF⟩
  | read here reads =>
    simp only [Daemon.step, here, reads, orWait, orBlock, bind, Except.bind, pure, Except.pure]
    exact ⟨_, rfl, feed, rfl, hF⟩
  | turned here turns =>
    simp only [Daemon.step, here, turns, orWait, orBlock, bind, Except.bind, pure, Except.pure]
    exact ⟨_, rfl, feed, rfl, hF⟩
  | command here turns sends =>
    simp only [Daemon.step, here, turns, hand, sends, orWait, orBlock, bind, Except.bind, Option.bind, pure, Except.pure]
    exact ⟨_, rfl, feed, rfl, hF⟩
  | reject here turns sends =>
    simp only [Daemon.step, here, turns, hand, sends, orWait, orBlock, bind, Except.bind, Option.bind, pure, Except.pure]
    exact ⟨_, rfl, feed, rfl, hF⟩
  | taken recvs takes =>
    simp only [Daemon.step, recvs, takes, orWait, bind, Except.bind, pure, Except.pure]
    exact ⟨_, rfl, feed, rfl, hF⟩
  | sent emits sends offers =>
    obtain ⟨feed', us', hoffers, hF'⟩ := hoffer _ _ _ _ _ hF offers
    simp only [Daemon.step, emits, sends, hoffers, orWait, orBlock, bind, Except.bind, pure, Except.pure]
    exact ⟨_, rfl, feed', rfl, hF'⟩
  | dispatched recvs writes =>
    simp only [Daemon.step, recvs, writes, orWait, orPanic, bind, Except.bind, pure, Except.pure]
    exact ⟨_, rfl, feed, rfl, hF⟩
  | fed own feeds =>
    obtain ⟨feed', u', hfeeds, hF'⟩ := hfeed _ _ _ _ _ hF rfl feeds
    rcases own with ⟨rfl, rfl⟩ | ⟨rfl, rfl⟩ | ⟨id, ok, rfl, rfl⟩
    all_goals
      simp only [Daemon.step, feedStep, hfeeds, orBlock, bind, Except.bind, pure, Except.pure]
      exact ⟨_, rfl, feed', rfl, hF'⟩

/-- Only the market-data threads step so. -/
theorem fed_own {fact : FeedAct} (h : d.step P act = .ok (d', .fed fact)) :
    act = .subscribe ∧ fact = .accept ∨ act = .fanOut ∧ fact = .fanOut ∨
      ∃ id ok, act = .write id ok ∧ fact = .write id ok := by
  cases step_cases h with
  | fed own _ => exact own

/-- A step of the market-data threads, seen from everywhere else. -/
theorem Alike.hidden (h : Alike F d e) (hmd : act.isMarketData = true) (hstep : d.step P act = .ok (d', o))
    (hkeep : ∀ fact f' u, o = .fed fact → d.feed.step k.marketData fact = .ok (f', u) → F f' e.feed) :
    Alike F d' e := by
  obtain ⟨feed, rfl, hF⟩ := h
  cases step_cases hstep with
  | fed own feeds => exact ⟨feed, rfl, hkeep _ _ _ rfl feeds⟩
  | _ => cases hmd

/-- An offer is never turned down. -/
theorem offers_any (f g : Feed) (evs : List Event) (f' : Feed) (us : List Unit) (_ : True)
    (_ : run (Feed.step k.marketData) f (evs.map .offer) = .ok (f', us)) :
    ∃ g' us', run (Feed.step k.marketData) g (evs.map .offer) = .ok (g', us') ∧ True := by
  obtain ⟨g', us', hrun⟩ := Feed.run_offers_ok k.marketData g evs
  exact ⟨g', us', hrun, trivial⟩

end Daemon

namespace Feed

variable {k : Capacities} {gone : SubscriberId → Bool} {f f' g : Feed} {act : FeedAct} {u : Unit}

/-- The same channel, and the same for every subscriber but these. -/
structure SameBut (gone : SubscriberId → Bool) (f g : Feed) : Prop where
  emitted : f.emitted = g.emitted
  channel : f.channel = g.channel
  nextId : f.nextId = g.nextId
  subscribers : ∀ id, gone id = false → f.subscribers id = g.subscribers id

/-- Every step but a write of one of these does the same for the other subscribers. -/
theorem SameBut.step (h : SameBut gone f g) (hact : ∀ id ok, act = .write id ok → gone id = false)
    (hstep : f.step k act = .ok (f', u)) : ∃ g' u', g.step k act = .ok (g', u') ∧ SameBut gone f' g' := by
  obtain ⟨hem, hch, hnext, hsub⟩ := h
  cases act with
  | offer event =>
    simp only [Feed.step] at hstep ⊢
    rw [hem, hch] at hstep
    split at hstep
    · next hroom =>
      cases hstep
      rw [if_pos hroom]
      exact ⟨_, _, rfl, rfl, rfl, hnext, hsub⟩
    · next hroom =>
      cases hstep
      rw [if_neg hroom]
      exact ⟨_, _, rfl, rfl, rfl, hnext, hsub⟩
  | fanOut =>
    simp only [Feed.step] at hstep ⊢
    rw [hch] at hstep
    cases hc : g.channel with
    | nil => rw [hc] at hstep; cases hstep
    | cons item channel =>
      rw [hc] at hstep
      cases hstep
      refine ⟨_, _, rfl, hem, rfl, hnext, fun id hid => ?_⟩
      show (f.subscribers id).map _ = (g.subscribers id).map _
      rw [hsub id hid]
  | accept =>
    cases hstep
    refine ⟨_, _, rfl, hem, hch, congrArg (· + 1) hnext, fun id hid => ?_⟩
    show Function.update f.subscribers f.nextId _ id = Function.update g.subscribers g.nextId _ id
    rw [hnext]
    by_cases hnew : id = g.nextId
    · rw [hnew, Function.update_self, Function.update_self]
    · rw [Function.update_of_ne hnew, Function.update_of_ne hnew, hsub id hid]
  | write id ok =>
    have hhere := hact id ok rfl
    simp only [Feed.step] at hstep ⊢
    rw [hsub id hhere] at hstep
    cases hw : (g.subscribers id).bind Subscriber.write with
    | none => rw [hw] at hstep; cases hstep
    | some sub =>
      rw [hw] at hstep
      cases hstep
      refine ⟨_, _, rfl, hem, hch, hnext, fun id' hid => ?_⟩
      show Function.update f.subscribers id _ id' = Function.update g.subscribers id _ id'
      by_cases hsame : id' = id
      · rw [hsame, Function.update_self, Function.update_self]
      · rw [Function.update_of_ne hsame, Function.update_of_ne hsame, hsub id' hid]

theorem SameBut.offers (h : SameBut gone f g) {evs : List Event} {us : List Unit}
    (hrun : run (Feed.step k) f (evs.map .offer) = .ok (f', us)) :
    ∃ g' us', run (Feed.step k) g (evs.map .offer) = .ok (g', us') ∧ SameBut gone f' g' := by
  induction evs generalizing f g us with
  | nil =>
    cases hrun
    exact ⟨g, [], rfl, h⟩
  | cons ev evs ih =>
    obtain ⟨f₁, u₁, us', h1, h2, rfl⟩ := run_cons_inv hrun
    have hno : ∀ id ok, FeedAct.offer ev = .write id ok → gone id = false := by
      intro _ _ ha
      cases ha
    obtain ⟨g₁, u₁', hg₁, hsame⟩ := h.step hno h1
    obtain ⟨g', us'', hrest, hend⟩ := ih hsame h2
    exact ⟨g', _, run_cons_ok hg₁ hrest, hend⟩

/-- A write of one of these is not seen. -/
theorem SameBut.write {id : SubscriberId} {ok : Bool} (h : SameBut gone f g) (hid : gone id = true)
    (hstep : f.step k (.write id ok) = .ok (f', u)) : SameBut gone f' g := by
  obtain ⟨hem, hch, hnext, hsub⟩ := h
  simp only [Feed.step] at hstep
  split at hstep
  · cases hstep
  · cases hstep
    refine ⟨hem, hch, hnext, fun id' hid' => ?_⟩
    have hne : id' ≠ id := by
      rintro rfl
      rw [hid] at hid'
      cases hid'
    exact (Function.update_of_ne hne _ _).trans (hsub id' hid')

end Feed

/-- **Market data interferes with nothing.** Take any run of the daemon. Without any of the market-data threads'
steps it is a run too, in which all the other threads and the channels between them end where they did, and the same
happened there. And without the writes of any subscribers, be it one of them or all but one: all ends where it did,
every other subscriber's queue, stamps and what was written to it included. -/
theorem market_data_never_interferes (P : Profile) (k : ChannelCapacities) (config : RiskConfig)
    (recorder : Option (List UInt8)) {acts : List DaemonAct} {d : Daemon k} {os : List Obs}
    (hrun : run (Daemon.step P) (.start k config recorder) acts = .ok (d, os)) :
    (∃ feed, run (Daemon.step P) (.start k config recorder) (acts.filter (fun act => !act.isMarketData)) =
      .ok ({ d with feed := feed }, os.filter Obs.isOrderEntry)) ∧
    ∀ gone : SubscriberId → Bool,
      ∃ feed, run (Daemon.step P) (.start k config recorder) (acts.filter (fun act => !act.isWriteOf gone)) =
        .ok ({ d with feed := feed }, os.filter (Obs.isNoWriteOf gone)) ∧
      (∀ id, gone id = false → feed.subscribers id = d.feed.subscribers id) ∧
      feed.emitted = d.feed.emitted ∧ feed.channel = d.feed.channel := by
  constructor
  · -- steps of the market-data threads are taken out, all the others are taken again
    have hhidden : ∀ (d e : Daemon k) (act : DaemonAct) (d' : Daemon k) (o : Obs), Daemon.Alike (fun _ _ => True) d e →
        act.isMarketData = true → d.step P act = .ok (d', o) →
        Daemon.Alike (fun _ _ => True) d' e ∧ o.isOrderEntry = false := by
      intro d e act d' o hR hact hstep
      refine ⟨hR.hidden hact hstep fun _ _ _ _ _ => trivial, ?_⟩
      cases Daemon.step_cases hstep with
      | fed _ _ => rfl
      | _ => cases hact
    have hshown : ∀ (d e : Daemon k) (act : DaemonAct) (d' : Daemon k) (o : Obs), Daemon.Alike (fun _ _ => True) d e →
        act.isMarketData = false → d.step P act = .ok (d', o) →
        ∃ e', e.step P act = .ok (e', o) ∧ Daemon.Alike (fun _ _ => True) d' e' ∧ o.isOrderEntry = true := by
      intro d e act d' o hR hact hstep
      have hno : ∀ fact, o ≠ .fed fact := by
        rintro fact rfl
        obtain ⟨ha, -⟩ | ⟨ha, -⟩ | ⟨_, _, ha, -⟩ := Daemon.fed_own hstep <;> rw [ha] at hact <;> cases hact
      obtain ⟨e', hstep', hR'⟩ := hR.step hstep Daemon.offers_any fun _ _ fact _ _ _ ho _ => absurd ho (hno fact)
      refine ⟨e', hstep', hR', ?_⟩
      cases o with
      | fed fact => exact absurd rfl (hno fact)
      | _ => rfl
    obtain ⟨e, hrun', feed, rfl, -⟩ := run_erase hhidden hshown ⟨_, rfl, trivial⟩ hrun
    exact ⟨feed, hrun'⟩
  · intro gone
    have hhidden : ∀ (d e : Daemon k) (act : DaemonAct) (d' : Daemon k) (o : Obs),
        Daemon.Alike (Feed.SameBut gone) d e → act.isWriteOf gone = true → d.step P act = .ok (d', o) →
        Daemon.Alike (Feed.SameBut gone) d' e ∧ o.isNoWriteOf gone = false := by
      intro d e act d' o hR hact hstep
      obtain ⟨id, ok, rfl, hid⟩ := DaemonAct.isWriteOf_eq hact
      obtain ⟨feed, u, hwrite, rfl, rfl⟩ := Daemon.feedStep_cases hstep
      obtain ⟨feed', rfl, hsame⟩ := hR
      refine ⟨⟨feed', rfl, hsame.write hid hwrite⟩, ?_⟩
      show (!gone id) = false
      rw [hid]
      rfl
    have hshown : ∀ (d e : Daemon k) (act : DaemonAct) (d' : Daemon k) (o : Obs),
        Daemon.Alike (Feed.SameBut gone) d e → act.isWriteOf gone = false → d.step P act = .ok (d', o) →
        ∃ e', e.step P act = .ok (e', o) ∧ Daemon.Alike (Feed.SameBut gone) d' e' ∧ o.isNoWriteOf gone = true := by
      intro d e act d' o hR hact hstep
      have hown : ∀ id ok, o = .fed (.write id ok) → gone id = false := by
        rintro id ok rfl
        obtain ⟨-, hf⟩ | ⟨-, hf⟩ | ⟨_, _, rfl, hf⟩ := Daemon.fed_own hstep
        · cases hf
        · cases hf
        · cases hf
          exact hact
      obtain ⟨e', hstep', hR'⟩ := hR.step hstep (fun _ _ _ _ _ hF hoffers => hF.offers hoffers)
        fun _ _ fact _ _ hF ho hfed => hF.step (fun id ok hfact => hown id ok (hfact ▸ ho)) hfed
      refine ⟨e', hstep', hR', ?_⟩
      cases o with
      | fed fact =>
        cases fact with
        | write id ok =>
          show (!gone id) = true
          rw [hown id ok rfl]
          rfl
        | _ => rfl
      | _ => rfl
    obtain ⟨e, hrun', feed, rfl, hsame⟩ := run_erase hhidden hshown ⟨_, rfl, rfl, rfl, rfl, fun _ _ => rfl⟩ hrun
    exact ⟨feed, hrun', fun id hid => (hsame.subscribers id hid).symm, hsame.emitted.symm, hsame.channel.symm⟩

theorem market_data_never_interferes_two_clients :
    ∃ d os, run (Daemon.step .release) (.start .default .default (some [])) twoClients = .ok (d, os) ∧
      (∃ feed, run (Daemon.step .release) (.start .default .default (some []))
        (twoClients.filter (fun act => !act.isMarketData)) =
        .ok ({ d with feed := feed }, os.filter Obs.isOrderEntry)) ∧
      ∀ gone : SubscriberId → Bool, ∃ feed, run (Daemon.step .release) (.start .default .default (some []))
          (twoClients.filter (fun act => !act.isWriteOf gone)) =
          .ok ({ d with feed := feed }, os.filter (Obs.isNoWriteOf gone)) ∧
        (∀ id, gone id = false → feed.subscribers id = d.feed.subscribers id) ∧
        feed.emitted = d.feed.emitted ∧ feed.channel = d.feed.channel := by
  obtain ⟨⟨d, os⟩, hrun⟩ := exists_of_isOk
    (x := run (Daemon.step .release) (.start .default .default (some [])) twoClients) (by decide +kernel)
  exact ⟨d, os, hrun, market_data_never_interferes .release .default .default (some []) hrun⟩

end MatchingEngine
