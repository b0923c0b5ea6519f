import MatchingEngine.Main.AtRest
import MatchingEngine.Main.Reports

/-!
# A client knows its orders

A client that folds the reports it is written into a map from order to quantity holds, when the
daemon is at rest, its own resting orders and nothing else (`clients_know_their_orders`), provided
every order is addressed from one connection only: its `home`. The reports of the whole system fold
to the whole book; routing splits them by connection, and the fold at a key only looks at the
reports about that key.

* `Homed`: what holds along every run of the matching thread; `Homed.step`.
* `Reports.foldl_filter`: the part of a fold that belongs to one connection.
-/

namespace MatchingEngine

namespace Reports

variable {m m' : Reports} {ev : Event} {k : Key}

/-- An event changes the map at its own order only. -/
theorem lookup_take_ne (h : eventId ev ≠ some k) : (m.take ev).lookup k = m.lookup k := by
  cases ev with
  | accepted a i q =>
    have hne : k ≠ (a, i) := fun heq => h (congrArg some heq.symm)
    exact (m.lookup_set (a, i) k q).trans (if_neg hne)
  | filled a i s p n q st =>
    have hne : k ≠ (a, i) := fun heq => h (congrArg some heq.symm)
    exact (m.lookup_set (a, i) k q).trans (if_neg hne)
  | cancelled a i => exact Finmap.lookup_erase_ne (fun heq => h (congrArg some heq.symm))
  | replaced a i q kept => exact Finmap.lookup_insert_of_ne _ (fun heq => h (congrArg some heq.symm))
  | _ => rfl

/-- What it makes of its own order depends on what the map had for it. -/
theorem lookup_take_congr (h : m.lookup k = m'.lookup k) (ev : Event) : (m.take ev).lookup k = (m'.take ev).lookup k := by
  by_cases hk : eventId ev = some k
  · cases ev with
    | accepted a i q =>
      show (m.set (a, i) q).lookup k = (m'.set (a, i) q).lookup k
      rw [lookup_set, lookup_set, h]
    | filled a i s p n q st =>
      show (m.set (a, i) q).lookup k = (m'.set (a, i) q).lookup k
      rw [lookup_set, lookup_set, h]
    | cancelled a i =>
      show (m.erase (a, i)).lookup k = (m'.erase (a, i)).lookup k
      rw [lookup_erase_if, lookup_erase_if, h]
    | replaced a i q kept =>
      show (m.insert (a, i) q).lookup k = (m'.insert (a, i) q).lookup k
      rw [lookup_insert_if, lookup_insert_if, h]
    | _ => exact h
  · rw [lookup_take_ne hk, lookup_take_ne hk, h]

/-- The event changes what is known about the order. -/
def Moves (k : Key) (ev : Event) : Prop := eventId ev = some k ∧ ¬ ev.Quiet

theorem lookup_take_still (h : ¬ Moves k ev) : (m.take ev).lookup k = m.lookup k := by
  by_cases hk : eventId ev = some k
  · have hquiet : ev.Quiet := by
      by_contra hq
      exact h ⟨hk, hq⟩
    rw [m.take_quiet hquiet]
  · exact lookup_take_ne hk

/-- **A fold at one order looks at the events that move it only**, so any choice of events that has them all will do. -/
theorem foldl_filter {α : Type*} {f : α → Event} {p : α → Bool} {l : List α}
    (hall : ∀ x ∈ l, Moves k (f x) → p x = true) (h : m.lookup k = m'.lookup k) :
    (((l.filter p).map f).foldl take m).lookup k = ((l.map f).foldl take m').lookup k := by
  induction l generalizing m m' with
  | nil => exact h
  | cons x l ih =>
    obtain ⟨hx, hl⟩ := List.forall_mem_cons.1 hall
    by_cases hp : p x = true
    · rw [List.filter_cons_of_pos hp]
      exact ih hl (lookup_take_congr h (f x))
    · rw [List.filter_cons_of_neg hp]
      refine ih hl ?_
      rw [h, lookup_take_still fun hk => hp (hx hk)]

/-- Events that do not move an order leave nothing behind for it. -/
theorem foldl_still {α : Type*} {f : α → Event} {l : List α} (hno : ∀ x ∈ l, ¬ Moves k (f x)) :
    ((l.map f).foldl take m).lookup k = m.lookup k := by
  induction l generalizing m with
  | nil => rfl
  | cons x l ih =>
    obtain ⟨hx, hl⟩ := List.forall_mem_cons.1 hno
    exact (ih hl).trans (lookup_take_still hx)

end Reports

namespace Matching

variable {P : Profile} {home : Key → ConnId} {t t' : Matching} {outs : List Dispatched} {out : Dispatched}

/-- Every command about an order comes from the order's home. -/
def FromHome (home : Key → ConnId) (x : ConnId × Command) : Prop := ∀ k, commandSelfId x.2 = some k → x.1 = home k

instance (home : Key → ConnId) (x : ConnId × Command) : Decidable (FromHome home x) :=
  match h : commandSelfId x.2 with
  | none => isTrue fun k hk => by rw [h] at hk; cases hk
  | some k =>
    decidable_of_iff (x.1 = home k) ⟨fun heq k' hk' => by
      rw [h] at hk'
      exact Option.some.inj hk' ▸ heq, fun hall => hall k h⟩

/-- The quantity an order rests with. -/
def restingQty (t : Matching) (k : Key) : Option ℕ := (t.system.engine.book.resting k).map (fun x => x.2.2)

theorem restingQty_eq {r : Ref} (hs : Sim P ⊤ t.system.engine.book r) (k : Key) : t.restingQty k = r.qtyOf k := by
  unfold restingQty
  rw [hs.resting]
  unfold Ref.resting Ref.qtyOf
  rw [Option.map_map]
  rfl

/-- Every report went to its order's home, the table knows the homes of the resting orders, and the reports fold
to the book. -/
structure Homed (P : Profile) (home : Key → ConnId) (outs : List Dispatched) (t : Matching) : Prop where
  routed : ∀ x ∈ MatchingThread.returned outs, ∀ k, eventId x.2.2 = some k → x.1 = home k
  tracks : Tracks P (fun k => some (home k)) t
  folds : ∀ k, (((MatchingThread.returned outs).map (fun x => x.2.2)).foldl Reports.take ∅).lookup k = t.restingQty k

theorem Homed.new (P : Profile) (home : Key → ConnId) (config : RiskConfig) (recorder : Option (List UInt8)) :
    Homed P home [] (new config recorder) :=
  ⟨fun _ hx => (nomatch hx), ⟨Ref.new, Sim.new P ⊤, fun _ hq => absurd rfl hq⟩, fun _ => rfl⟩

/-- Market data is no report. -/
theorem foldl_returns {evs : List (ℕ × Event)} (h : out.returns.map Prod.snd = evs.filter (fun e => !e.2.isMarketData))
    (m : Reports) (k : Key) : ((out.returns.map (fun x => x.2.2)).foldl Reports.take m).lookup k =
      ((evs.map Prod.snd).foldl Reports.take m).lookup k := by
  have hret : out.returns.map (fun x => x.2.2) = (evs.filter (fun e => !e.2.isMarketData)).map Prod.snd := by
    rw [← h, List.map_map]
    rfl
  rw [hret]
  refine Reports.foldl_filter (fun x _ hid => ?_) rfl
  obtain ⟨seq, ev⟩ := x
  cases ev <;> first | rfl | cases hid.1

/-- **One turn**, of a command that comes from its order's home. -/
theorem Homed.step (hP : P.Total) (h : Homed P home outs t) {x : ConnId × Command} (hc : x.2.Decodable)
    (hhome : FromHome home x) (hstep : t.step P x = .ok (t', out)) : Homed P home (outs ++ [out]) t' := by
  obtain ⟨connId, cmd⟩ := x
  obtain ⟨r, hs, hk⟩ := h.tracks
  obtain ⟨evs, hp, htable, hall, hsent, -⟩ := step_cases hstep
  obtain ⟨r', hs', hans, hfol, hk'⟩ := follows_process hP connId hs hc hp hk
  have hreturned : MatchingThread.returned (outs ++ [out]) = MatchingThread.returned outs ++ out.returns := by
    simp [MatchingThread.returned]
  -- an order the command commits has its home where the command came from
  have howner : reowned connId (fun k => some (home k)) (evs.map Prod.snd) = fun k => some (home k) := by
    funext k
    unfold reowned
    split
    · next hcom => exact congrArg some (hhome k (hans.commits hcom))
    · rfl
  rw [howner] at hk'
  refine ⟨?_, ⟨r', hs', htable ▸ hk'⟩, fun k => ?_⟩
  · rw [hreturned, List.forall_mem_append]
    refine ⟨h.routed, fun y hy k hid => ?_⟩
    obtain ⟨pre, post, heq, hdest⟩ := hsent y hy
    rw [hdest]
    unfold destination
    rw [hid]
    by_cases hself : commandSelfId cmd = some k
    · rw [hself]
      exact (route_self _ _).trans (hhome k hself)
    · rw [heq, List.map_append, List.map_cons] at hfol
      obtain ⟨-, c, hown, hl⟩ := hfol.split hid hself
      exact (route_other hself hl).trans (Option.some.inj hown).symm
  · rw [hreturned, List.map_append, List.foldl_append, foldl_returns hall]
    rcases System.processCommand_gate hp with ⟨ev, hg, he, rfl⟩ | ⟨-, evs', ha, rfl⟩
    · -- rejected at the gate: neither the book nor the map moves
      obtain ⟨a, i, reason, rfl, -⟩ := RiskState.preApplyCheck_answers hg
      unfold restingQty
      rw [he]
      exact h.folds k
    · obtain ⟨rfl, hs₁⟩ := hs.applied hP hc ha
      rw [System.map_snd_numbered, Ref.foldl_apply (fun _ _ _ => rfl), restingQty_eq hs₁]
      refine (r.did P cmd).reports hs.wf (hc.checked (P := P)) (fun k => ?_) k
      rw [h.folds k, restingQty_eq hs]

/-- **Whole runs** of commands that come from their orders' homes. -/
theorem run_homed (hP : P.Total) {config : RiskConfig} {recorder : Option (List UInt8)}
    {inputs : List (ConnId × Command)} (hin : ∀ x ∈ inputs, x.2.Decodable ∧ FromHome home x)
    (hrun : run (step P) (.new config recorder) inputs = .ok (t, outs)) : Homed P home outs t :=
  run_history_along (C := fun _ x => x.2.Decodable ∧ FromHome home x) (Homed P home)
    (fun _ _ _ _ _ h hc hstep => h.step hP hc.1 hc.2 hstep) (Homed.new P home config recorder) (along_of_forall hin) hrun

end Matching

/-- What a client knows of its orders: the reports written to it, folded. -/
def viewOf (c : ConnId) (os : List Obs) : Reports :=
  ((reportsTo c (os.flatMap Obs.fromDispatcher)).map Report.event).foldl Reports.take ∅

/-- **Each client knows its orders.** If every order is addressed from one connection only, then, the daemon at rest
and no write to a client failed, the client that folded the reports written to it has an entry for exactly the
orders of its own that rest in the book, with the quantity they rest with. -/
theorem clients_know_their_orders {P : Profile} (hP : P.Total) (k : ChannelCapacities) (config : RiskConfig)
    (recorder : Option (List UInt8)) {acts : List DaemonAct} {d : Daemon k} {os : List Obs}
    (hrun : run (Daemon.step P) (.start k config recorder) acts = .ok (d, os)) (hidle : d.Idle) (home : Key → ConnId)
    (hhome : ∀ x ∈ takenCommands os, Matching.FromHome home x) {c : ConnId} (hok : WritesSucceed c os) (id : Key) :
    (viewOf c os).lookup id = if home id = c then d.matching.matching.restingQty id else none := by
  obtain ⟨final, outs, hlin⟩ := Daemon.linearized hrun
  have hdec : ∀ x ∈ takenCommands os, x.2.Decodable := fun x hx => hlin.decodable x (List.mem_append_left _ hx)
  have hhomed := Matching.run_homed hP (fun x hx => ⟨hdec x hx, hhome x hx⟩) hlin.run
  have hfinal : final.restingQty id = d.matching.matching.restingQty id := by
    unfold Matching.restingQty
    rw [hlin.system]
  -- what was written to the client are the items for it
  have hview : viewOf c os = (((os.flatMap Obs.dispatchedItem).filter (fun x => x.1 = c)).map
      (fun x => x.2.2)).foldl Reports.take ∅ := by
    have hitems := (Daemon.run_stream hrun c).items
    rw [itemsTo_dispatched c os hok] at hitems
    have hevents : (reportsTo c (os.flatMap Obs.fromDispatcher)).map Report.event =
        ((reportsTo c (os.flatMap Obs.fromDispatcher)).map Report.item).map Prod.snd := by
      rw [List.map_map]
      rfl
    unfold viewOf
    rw [hevents, hitems, List.map_map]
    rfl
  have hreturned : (os.flatMap Obs.dispatchedItem).filter (fun x => x.2.1 ≠ wireLevelRejectEngineSeq) =
      MatchingThread.returned outs := hlin.dispatched_at_rest hidle
  -- a reject of a reader moves no order
  have hnumbered : ∀ x ∈ os.flatMap Obs.dispatchedItem, Reports.Moves id x.2.2 → x.2.1 ≠ wireLevelRejectEngineSeq := by
    intro x hx hmoves hzero
    obtain ⟨reason, hev⟩ := hlin.reject_of_zero (List.mem_append_left _ hx) hzero
    exact hmoves.2 (hev ▸ trivial)
  have hroute : ∀ x ∈ os.flatMap Obs.dispatchedItem, Reports.Moves id x.2.2 → x.1 = home id := by
    intro x hx hmoves
    refine hhomed.routed x ?_ id hmoves.1
    rw [← hreturned]
    exact List.mem_filter.2 ⟨hx, by simpa using hnumbered x hx hmoves⟩
  rw [hview]
  split
  · next hc =>
    have hown := Reports.foldl_filter (f := fun x : ConnId × ℕ × Event => x.2.2) (p := fun x => x.1 = c)
      (fun x hx hmoves => by simpa using (hroute x hx hmoves).trans hc) (rfl : (∅ : Reports).lookup id = _)
    have hall := Reports.foldl_filter (f := fun x : ConnId × ℕ × Event => x.2.2)
      (p := fun x => x.2.1 ≠ wireLevelRejectEngineSeq) (fun x hx hmoves => by simpa using hnumbered x hx hmoves)
      (rfl : (∅ : Reports).lookup id = _)
    rw [hown, ← hall, hreturned, hhomed.folds id, hfinal]
  · next hc =>
    refine (Reports.foldl_still fun x hx hmoves => ?_).trans rfl
    obtain ⟨hx, hto⟩ := List.mem_filter.1 hx
    exact hc ((hroute x hx hmoves).symm.trans (of_decide_eq_true hto))

/-- Two clients, one account each: the first one's order is left with a quantity of two. -/
theorem clients_know_their_orders_two_clients :
    ∃ d os, run (Daemon.step .release) (.start .default .default (some [])) twoClients = .ok (d, os) ∧ d.Idle ∧
      (∀ x ∈ takenCommands os, Matching.FromHome (fun id => id.1) x) ∧ WritesSucceed 1 os ∧
      (viewOf 1 os).lookup (1, 1) = some 2 ∧
      ∀ id, (viewOf 1 os).lookup id = if id.1 = 1 then d.matching.matching.restingQty id else none := by
  obtain ⟨⟨d, os⟩, hrun, hbelow, hhome, hok, hview⟩ := exists_ok_of_decide
    (x := run (Daemon.step .release) (.start .default .default (some [])) twoClients)
    (p := fun r => r.1.idleBelow = true ∧ (∀ x ∈ takenCommands r.2, Matching.FromHome (fun id => id.1) x) ∧
      r.2.all (fun o => !o.writeFailed 1) = true ∧ (viewOf 1 r.2).lookup (1, 1) = some 2) (by decide +kernel)
  obtain ⟨hf, hfeed⟩ := Daemon.run_fresh (Daemon.fresh_start .default .default (some [])) (fun _ _ => rfl) hrun
  have hidle := Daemon.idle_of_idleBelow hf hfeed hbelow
  have hwrites := writesSucceed_of_all hok
  exact ⟨d, os, hrun, hidle, hhome, hwrites, hview,
    clients_know_their_orders Profile.release_total .default .default (some []) hrun hidle _ hhome hwrites⟩

end MatchingEngine
