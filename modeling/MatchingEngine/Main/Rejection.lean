import MatchingEngine.Main.MassCancel
import MatchingEngine.Main.Precheck
import MatchingEngine.Gateway.Routing

/-!
# Rejections are atomic

A command that is turned away leaves the book alone, field by field, and says nothing
else. The one exception is a PostOnly order that would cross: the own orders in its way
have been cancelled by then, and stay cancelled.

* `Told`: what a command reports, by how it ends.
* `dispatch_refused`: after a lone rejection the book is the same book.
* `Sim.stpClear_cancels`: the PostOnly check is a run of single cancels.
* `rejections_atomic`: from every reachable state, through the gate.
-/

namespace MatchingEngine

/-- What a command reports: a rejection alone; own orders cancelled and the PostOnly rejection; an order's events
with one answer; or no answer at all. -/
inductive Told : Command → List Event → Prop
  | refused {c : Command} {a i : ℕ} {reason : RejectReason} (other : reason ≠ .wouldCross) :
      Told c [.rejected a i reason]
  | crossed {a i : ℕ} {s : Side} {p q ts : ℕ} (ids : List ℕ) :
      Told (.newOrder a i s p q .limit .postOnly ts) (ids.map (fun id => .cancelled a id) ++ [.rejected a i .wouldCross])
  | accepted {a i : ℕ} {s : Side} {p q : ℕ} {k : OrderKind} {t : Tif} {ts x : ℕ} {evs : List Event}
      (quiet : ∀ ev ∈ evs, ev.isAnswer = false) : Told (.newOrder a i s p q k t ts) (evs ++ [.accepted a i x])
  | replaced {a i p q : ℕ} {kept : Bool} {evs : List Event} (quiet : ∀ ev ∈ evs, ev.isAnswer = false) :
      Told (.cancelReplace a i p q) (.replaced a i q kept :: evs)
  | silent {c : Command} {evs : List Event} (quiet : ∀ ev ∈ evs, ev.isAnswer = false)
      (new : ∀ a i s p q k t ts, c ≠ .newOrder a i s p q k t ts) (amend : ∀ a i p q, c ≠ .cancelReplace a i p q) :
      Told c evs

namespace Ref

variable {r : Ref} {c : Command} {a i : ℕ}

theorem told_unlessDuplicate {res : Ref × List Event} (h : Told c res.2) : Told c (r.unlessDuplicate a i res).2 := by
  unfold unlessDuplicate
  split
  · exact .refused (by decide)
  · exact h

/-- **Every command reports in one of these ways.** -/
theorem WF.dispatch_told (h : r.WF) (P : Profile) (c : Command) : Told c (r.dispatch P c).2 := by
  cases c with
  | newOrder a i s p q k t ts =>
    have hsweep : ∀ limit x, Told (.newOrder a i s p q k t ts) ((r.sweep a i s limit q).2.2 ++ [.accepted a i x]) :=
      fun limit x => .accepted (h.sweep_noAnswer a i s limit q)
    cases k with
    | market => exact told_unlessDuplicate (hsweep _ _)
    | limit =>
      cases t with
      | gtc => exact told_unlessDuplicate (hsweep _ _)
      | ioc => exact told_unlessDuplicate (hsweep _ _)
      | fok =>
        refine told_unlessDuplicate ?_
        split
        · exact hsweep _ _
        · exact .refused (by decide)
      | postOnly =>
        refine told_unlessDuplicate ?_
        split
        · simp only
          rw [ownPrefix_cancelled]
          exact .crossed _
        · refine .accepted ?_
          rw [List.forall_mem_map]
          exact fun _ _ => rfl
  | cancelOrder a i =>
    show Told _ (r.cancel a i).2
    unfold cancel
    split
    · exact .silent (by simp [Event.isAnswer]) (by simp) (by simp)
    · exact .refused (by decide)
  | cancelReplace a i p q =>
    show Told _ (r.modify a i p q).2
    unfold modify
    split
    · exact .refused (by decide)
    · split
      · exact .refused (by decide)
      · next s o hf =>
        split
        · exact .replaced (by simp)
        · exact .replaced ((h.remove (find_some hf).1).sweep_noAnswer a i s p q)
  | massCancel a =>
    refine .silent ?_ (by simp) (by simp)
    show ∀ ev ∈ (r.slots a).map (fun id => Event.cancelled a id), _
    rw [List.forall_mem_map]
    exact fun _ _ => rfl
  | killSwitch e => exact .silent (by simp [dispatch]) (by simp) (by simp)
  | snapshot =>
    refine .silent ?_ (by simp) (by simp)
    intro ev hev
    simp only [dispatch, snapshot, snapshotLevels, List.mem_append, List.mem_map, List.mem_singleton] at hev
    rcases hev with ((⟨p, -, rfl⟩ | ⟨p, -, rfl⟩) | ⟨a, -, rfl⟩) | rfl <;> rfl

end Ref

section Refused

variable {P : Profile} {b b' : Book} {a i a' i' : ℕ} {reason : RejectReason} {s : Side} {p q : ℕ}

/-- Past the duplicate check something else is said. -/
theorem Book.unlessDuplicate_refused {body : Except Panic (Book × List Event)}
    (h : b.unlessDuplicate a i body = .ok (b', [.rejected a' i' reason]))
    (hbody : body = .ok (b', [.rejected a' i' reason]) → b' = b) : b' = b := by
  unfold Book.unlessDuplicate at h
  split at h
  · exact (Prod.mk.inj (Except.ok.inj h)).1.symm
  · exact hbody h

/-- A sweep followed by an acceptance is no rejection. -/
theorem append_accepted_ne {evs : List Event} {x : ℕ} : evs ++ [.accepted a i x] ≠ [.rejected a' i' reason] := by
  intro h
  have := congrArg List.getLast? h
  simp at this

theorem Book.submitGtc_refused (h : b.submitGtc P a i s p q = .ok (b', [.rejected a' i' reason])) : b' = b := by
  unfold Book.submitGtc at h
  obtain ⟨-, -, h⟩ := exists_of_bind_ok h
  obtain ⟨-, -, h⟩ := exists_of_bind_ok h
  refine Book.unlessDuplicate_refused h fun hbody => ?_
  obtain ⟨⟨b₁, remaining, evs⟩, -, hbody⟩ := exists_of_bind_ok hbody
  simp only at hbody
  split at hbody
  · obtain ⟨b₂, -, hbody⟩ := exists_of_bind_ok hbody
    exact absurd (Prod.mk.inj (Except.ok.inj hbody)).2 append_accepted_ne
  · exact absurd (Prod.mk.inj (Except.ok.inj hbody)).2 append_accepted_ne

/-- IOC and market orders. -/
theorem Book.sweepOnly_refused {limit : ℕ} (h : (b.unlessDuplicate a i do
      let (b, _, evs) ← b.sweep P a i s limit q
      pure (b, evs ++ [.accepted a i 0])) = .ok (b', [.rejected a' i' reason])) : b' = b := by
  refine Book.unlessDuplicate_refused h fun hbody => ?_
  obtain ⟨⟨b₁, remaining, evs⟩, -, hbody⟩ := exists_of_bind_ok hbody
  exact absurd (Prod.mk.inj (Except.ok.inj hbody)).2 append_accepted_ne

theorem Book.submitIoc_refused (h : b.submitIoc P a i s p q = .ok (b', [.rejected a' i' reason])) : b' = b := by
  unfold Book.submitIoc at h
  obtain ⟨-, -, h⟩ := exists_of_bind_ok h
  obtain ⟨-, -, h⟩ := exists_of_bind_ok h
  exact Book.sweepOnly_refused h

theorem Book.submitMarket_refused (h : b.submitMarket P a i s q = .ok (b', [.rejected a' i' reason])) : b' = b := by
  unfold Book.submitMarket at h
  obtain ⟨-, -, h⟩ := exists_of_bind_ok h
  exact Book.sweepOnly_refused h

theorem Book.submitFok_refused (h : b.submitFok P a i s p q = .ok (b', [.rejected a' i' reason])) : b' = b := by
  unfold Book.submitFok at h
  obtain ⟨-, -, h⟩ := exists_of_bind_ok h
  obtain ⟨-, -, h⟩ := exists_of_bind_ok h
  refine Book.unlessDuplicate_refused h fun hbody => ?_
  obtain ⟨fillable, -, hbody⟩ := exists_of_bind_ok hbody
  split at hbody
  · obtain ⟨⟨b₁, remaining, evs⟩, -, hbody⟩ := exists_of_bind_ok hbody
    obtain ⟨-, -, hbody⟩ := exists_of_bind_ok hbody
    exact absurd (Prod.mk.inj (Except.ok.inj hbody)).2 append_accepted_ne
  · exact (Prod.mk.inj (Except.ok.inj hbody)).1.symm

theorem Book.submitPostonly_refused (h : b.submitPostonly P a i s p q = .ok (b', [.rejected a' i' reason]))
    (hr : reason ≠ .wouldCross) : b' = b := by
  unfold Book.submitPostonly at h
  obtain ⟨-, -, h⟩ := exists_of_bind_ok h
  obtain ⟨-, -, h⟩ := exists_of_bind_ok h
  refine Book.unlessDuplicate_refused h fun hbody => ?_
  obtain ⟨⟨crosses, b₁, evs⟩, -, hbody⟩ := exists_of_bind_ok hbody
  simp only at hbody
  split at hbody
  · -- this rejection has the other reason
    have hlast := congrArg List.getLast? (Prod.mk.inj (Except.ok.inj hbody)).2
    simp only [List.getLast?_concat, List.getLast?_singleton, Option.some.injEq, Event.rejected.injEq] at hlast
    exact absurd hlast.2.2.symm hr
  · obtain ⟨b₂, -, hbody⟩ := exists_of_bind_ok hbody
    exact absurd (Prod.mk.inj (Except.ok.inj hbody)).2 append_accepted_ne

theorem Book.modify_refused (h : b.modify P a i p q = .ok (b', [.rejected a' i' reason])) : b' = b := by
  unfold Book.modify at h
  split at h
  · exact (Prod.mk.inj (Except.ok.inj h)).1.symm
  · split at h
    · exact (Prod.mk.inj (Except.ok.inj h)).1.symm
    · obtain ⟨node, -, h⟩ := exists_of_bind_ok h
      simp only at h
      split at h
      · obtain ⟨b₁, -, h⟩ := exists_of_bind_ok h
        simpa using (Prod.mk.inj (Except.ok.inj h)).2
      · obtain ⟨b₁, -, h⟩ := exists_of_bind_ok h
        obtain ⟨⟨b₂, remaining, evs⟩, -, h⟩ := exists_of_bind_ok h
        simp only at h
        split at h
        · obtain ⟨b₃, -, h⟩ := exists_of_bind_ok h
          simpa using (Prod.mk.inj (Except.ok.inj h)).2
        · simpa using (Prod.mk.inj (Except.ok.inj h)).2

theorem Book.cancel_refused (h : b.cancel P a i = .ok (b', [.rejected a' i' reason])) : b' = b := by
  unfold Book.cancel at h
  split at h
  · obtain ⟨b₁, -, h⟩ := exists_of_bind_ok h
    simpa using (Prod.mk.inj (Except.ok.inj h)).2
  · exact (Prod.mk.inj (Except.ok.inj h)).1.symm

/-- A mass cancel rejects nothing. -/
theorem Book.massCancelLoop_refused {slots : List ℕ} :
    b.massCancelLoop P a slots ≠ .ok (b', [.rejected a' i' reason]) := by
  intro h
  cases slots with
  | nil => simp [Book.massCancelLoop] at h
  | cons slot slots =>
    unfold Book.massCancelLoop at h
    obtain ⟨node, -, h⟩ := exists_of_bind_ok h
    obtain ⟨b₁, -, h⟩ := exists_of_bind_ok h
    obtain ⟨⟨b₂, evs⟩, -, h⟩ := exists_of_bind_ok h
    simpa using (Prod.mk.inj (Except.ok.inj h)).2

/-- **After a lone rejection the book is the same book.** -/
theorem dispatch_refused {c : Command} (h : Engine.dispatch P b c = .ok (b', [.rejected a' i' reason]))
    (hr : reason ≠ .wouldCross) : b' = b := by
  cases c with
  | newOrder a i s p q k t ts =>
    cases k with
    | market => exact Book.submitMarket_refused h
    | limit =>
      cases t with
      | gtc => exact Book.submitGtc_refused h
      | ioc => exact Book.submitIoc_refused h
      | fok => exact Book.submitFok_refused h
      | postOnly => exact Book.submitPostonly_refused h hr
  | cancelOrder a i => exact Book.cancel_refused h
  | cancelReplace a i p q => exact Book.modify_refused h
  | massCancel a =>
    change b.massCancel P a = _ at h
    unfold Book.massCancel at h
    split at h
    · simp at h
    · exact absurd h Book.massCancelLoop_refused
  | killSwitch e => simp [Engine.dispatch] at h
  | snapshot =>
    obtain ⟨evs, -, h⟩ := exists_of_bind_ok h
    exact (Prod.mk.inj (Except.ok.inj h)).1.symm

end Refused

section Crossed

variable {P : Profile} {N : ℕ∞} {b b' : Book} {r : Ref} {a : ℕ} {s : Side} {p : ℕ} {crosses : Bool} {evs : List Event}

/-- Nothing to clear. -/
theorem Book.cancelEach_none {c : Bool} (he : (Except.ok (c, b, []) : Except Panic _) = .ok (crosses, b', evs)) :
    ∃ ids, evs = ids.map (fun id => .cancelled a id) ∧
      b.cancelEach P a ids = .ok (b', ids.map (fun id => [.cancelled a id])) := by
  simp only [Except.ok.injEq, Prod.mk.injEq] at he
  obtain ⟨-, rfl, rfl⟩ := he
  exact ⟨[], rfl, rfl⟩

/-- **The PostOnly check is a run of single cancels.** -/
theorem Sim.stpClear_cancels (h : Sim P N b r) {fuel : ℕ} (hl : b.stpClearLoop P a s p fuel = .ok (crosses, b', evs)) :
    ∃ ids, evs = ids.map (fun id => .cancelled a id) ∧
      b.cancelEach P a ids = .ok (b', ids.map (fun id => [.cancelled a id])) := by
  induction fuel generalizing b r evs with
  | zero => simp [Book.stpClearLoop] at hl
  | succ fuel ih =>
    unfold Book.stpClearLoop at hl
    split at hl
    · exact Book.cancelEach_none hl
    · split at hl
      · exact ih h hl
      · rename_i slot _
        obtain ⟨node, hnode, hl⟩ := exists_of_bind_ok hl
        have hn := expect_ok hnode
        split at hl
        · rename_i hown
          obtain ⟨b₁, hb₁, hl⟩ := exists_of_bind_ok hl
          obtain ⟨⟨c, b₂, evs'⟩, hrec, hl⟩ := exists_of_bind_ok hl
          simp only [pure, Except.pure, Except.ok.injEq, Prod.mk.injEq] at hl
          obtain ⟨rfl, rfl, rfl⟩ := hl
          obtain ⟨b₁', hb₁', hs₁⟩ := h.unlink hn
          obtain rfl : b₁ = b₁' := Except.ok.inj (hb₁.symm.trans hb₁')
          obtain ⟨ids, rfl, hids⟩ := ih hs₁ hrec
          -- the head of the level is what `cancel` finds under its id
          have hcancel : b.cancel P a node.id = .ok (b₁, [.cancelled a node.id]) := by
            unfold Book.cancel
            rw [← hown, h.index hn]
            simp only [hb₁, bind, Except.bind, pure, Except.pure]
          refine ⟨node.id :: ids, ?_, run_cons_ok hcancel hids⟩
          rw [List.map_cons, hown]
        · exact Book.cancelEach_none hl

theorem cancelled_injective (a : ℕ) : Function.Injective (fun id => Event.cancelled a id) := by
  intro i j h
  simpa using h

/-- **A PostOnly order that would cross** has cancelled the own orders ahead of the first foreign one, as `cancel`
would. -/
theorem Sim.postonly_crossed (h : Sim P N b r) {i q ts : ℕ} {ids : List ℕ}
    (hd : Engine.dispatch P b (.newOrder a i s p q .limit .postOnly ts) =
      .ok (b', ids.map (fun id => .cancelled a id) ++ [.rejected a i .wouldCross])) :
    b.cancelEach P a ids = .ok (b', ids.map (fun id => [.cancelled a id])) ∧
    (∀ side, b'.ordersOf side = (b.ordersOf side).filter (fun o => ¬ (o.account = a ∧ o.id ∈ ids))) ∧
    b'.lastTrade = b.lastTrade := by
  change b.submitPostonly P a i s p q = _ at hd
  unfold Book.submitPostonly at hd
  obtain ⟨-, -, hd⟩ := exists_of_bind_ok hd
  obtain ⟨-, -, hd⟩ := exists_of_bind_ok hd
  unfold Book.unlessDuplicate at hd
  split at hd
  · -- a duplicate is rejected for another reason
    have hlast := congrArg List.getLast? (Prod.mk.inj (Except.ok.inj hd)).2
    simp at hlast
  · obtain ⟨b₁, hb₁, hs₁⟩ := h.stpClear a s p
    obtain ⟨⟨c, b₂, evs⟩, hclear, hd⟩ := exists_of_bind_ok hd
    obtain ⟨ids', hids', hcancels⟩ := h.stpClear_cancels (show b.stpClearLoop P a s p _ = _ from hclear)
    simp only at hd
    split at hd
    · have hd := Prod.mk.inj (Except.ok.inj hd)
      obtain rfl : b₂ = b' := hd.1
      have hevs := List.append_cancel_right hd.2
      obtain rfl : ids' = ids := (List.map_injective_iff.2 (cancelled_injective a)) (hids'.symm.trans hevs)
      rw [hb₁] at hclear
      simp only [Except.ok.injEq, Prod.mk.injEq] at hclear
      obtain ⟨-, rfl, hown⟩ := hclear
      rw [Ref.ownPrefix_cancelled, hids'] at hown
      obtain rfl := (List.map_injective_iff.2 (cancelled_injective a)) hown
      refine ⟨hcancels, fun side => ?_, ?_⟩
      · rw [h.ordersOf, hs₁.ordersOf, h.wf.clear_side]
        apply List.filter_congr
        intro o ho
        have hmem : o ∈ r.ownPrefix a s p ↔ o.account = a ∧ o.id ∈ (r.ownPrefix a s p).map Order.id := by
          constructor
          · intro hm
            exact ⟨by simpa using List.mem_takeWhile_imp hm, List.mem_map_of_mem hm⟩
          · rintro ⟨ha, hid⟩
            obtain ⟨x, hx, hxid⟩ := List.mem_map.1 hid
            have hxa : x.account = a := by simpa using List.mem_takeWhile_imp hx
            have hxs : x ∈ r.side s.opposite := (List.takeWhile_prefix _).subset ((List.takeWhile_prefix _).subset hx)
            obtain rfl := h.wf.key_inj (r.side_sub_orders _ x hxs) (r.side_sub_orders _ o ho)
              (Prod.ext (hxa.trans ha.symm) hxid)
            exact hx
        rw [Bool.eq_iff_iff, decide_eq_true_iff, decide_eq_true_iff, hmem]
      · rw [h.lastTrade, hs₁.lastTrade]
        exact h.wf.clear_lastTrade
    · obtain ⟨b₃, -, hd⟩ := exists_of_bind_ok hd
      have hlast := congrArg List.getLast? (Prod.mk.inj (Except.ok.inj hd)).2
      simp at hlast

end Crossed

/-- A command's own events, and the top-of-book update if the top has moved. -/
theorem Engine.apply_inv {P : Profile} {e e' : Engine} {c : Command} {evs : List Event}
    (h : e.apply P c = .ok (e', evs)) :
    ∃ core tail, Engine.dispatch P e.book c = .ok (e'.book, core) ∧ evs = core ++ tail ∧
      (tail = [] ∨ (e'.book.topOfBook ≠ e.book.topOfBook ∧ ∃ bid ask, tail = [.bookUpdate bid ask])) := by
  unfold Engine.apply at h
  obtain ⟨⟨b, core⟩, hd, h⟩ := exists_of_bind_ok h
  obtain ⟨rfl, hevs⟩ := Prod.mk.inj (Except.ok.inj h)
  split at hevs
  · rename_i hmoved
    exact ⟨core, _, hd, hevs.symm, Or.inr ⟨fun he => hmoved he.symm, _, _, rfl⟩⟩
  · exact ⟨core, [], hd, by rw [← hevs, List.append_nil], Or.inl rfl⟩

/-- What is said of rejections when `c` takes `b` to `b'` and emits `evs`. -/
structure RejectsAtomically (P : Profile) (b : Book) (c : Command) (b' : Book) (evs : List Event) : Prop where
  /-- A rejection is the only event and the book is the same, field by field, -/
  alone : ∀ a i reason, .rejected a i reason ∈ evs → reason ≠ .wouldCross → evs = [.rejected a i reason] ∧ b' = b
  /-- but for a PostOnly order that would cross: the issuer's orders named before it are gone, as if cancelled one by
  one, and nothing else has changed. -/
  crossed : ∀ a i, .rejected a i .wouldCross ∈ evs → ∃ side p q ts ids tail,
    c = .newOrder a i side p q .limit .postOnly ts ∧
    evs = ids.map (fun id => .cancelled a id) ++ .rejected a i .wouldCross :: tail ∧
    (tail = [] ∨ ∃ bid ask, tail = [.bookUpdate bid ask]) ∧
    b.cancelEach P a ids = .ok (b', ids.map (fun id => [.cancelled a id])) ∧
    (∀ side, b'.ordersOf side = (b.ordersOf side).filter (fun o => ¬ (o.account = a ∧ o.id ∈ ids))) ∧
    b'.lastTrade = b.lastTrade
  /-- Without a rejection there is one answer: a new order is accepted, an amend replaced. -/
  answered : (∀ a i reason, .rejected a i reason ∉ evs) →
    (∀ a i side p q k t ts, c = .newOrder a i side p q k t ts → ∃ x, evs.filter Event.isAnswer = [.accepted a i x]) ∧
    (∀ a i p q, c = .cancelReplace a i p q → ∃ kept, evs.filter Event.isAnswer = [.replaced a i q kept])

section

variable {P : Profile} {b b' : Book} {c : Command} {evs tail : List Event} {r : Ref}

theorem filter_answers_quiet (h : ∀ ev ∈ evs, ev.isAnswer = false) : evs.filter Event.isAnswer = [] := by
  rw [List.filter_eq_nil_iff]
  intro ev hev
  simp [h ev hev]

/-- A rejection is an answer. -/
theorem rejected_mem {a i : ℕ} {reason : RejectReason} (h : .rejected a i reason ∈ evs) :
    .rejected a i reason ∈ evs.filter Event.isAnswer := List.mem_filter.2 ⟨h, rfl⟩

/-- Commands that reject nothing. -/
theorem RejectsAtomically.of_none (hno : ∀ a i reason, .rejected a i reason ∉ evs.filter Event.isAnswer)
    (hnew : ∀ a i side p q k t ts, c = .newOrder a i side p q k t ts →
      ∃ x, evs.filter Event.isAnswer = [.accepted a i x])
    (hamend : ∀ a i p q, c = .cancelReplace a i p q → ∃ kept, evs.filter Event.isAnswer = [.replaced a i q kept]) :
    RejectsAtomically P b c b' evs :=
  ⟨fun a i reason hm => absurd (rejected_mem hm) (hno a i reason), fun a i hm => absurd (rejected_mem hm) (hno a i _),
    fun _ => ⟨hnew, hamend⟩⟩

/-- A rejection and nothing else. -/
theorem RejectsAtomically.of_refused {a i : ℕ} {reason : RejectReason} (hr : reason ≠ .wouldCross) :
    RejectsAtomically P b c b [.rejected a i reason] := by
  refine ⟨?_, ?_, fun hno => absurd List.mem_cons_self (hno a i reason)⟩
  · intro a' i' reason' hm _
    rw [List.mem_singleton] at hm
    exact ⟨by rw [hm], rfl⟩
  · intro a' i' hm
    rw [List.mem_singleton, Event.rejected.injEq] at hm
    exact absurd hm.2.2.symm hr

/-- A PostOnly order that would cross, with the own orders it has cancelled. -/
theorem RejectsAtomically.of_crossed {a i : ℕ} {s : Side} {p q ts : ℕ} {ids : List ℕ}
    (hanswers : tail.filter Event.isAnswer = []) (htail : tail = [] ∨ ∃ bid ask, tail = [.bookUpdate bid ask])
    (hcancels : b.cancelEach P a ids = .ok (b', ids.map (fun id => [.cancelled a id])))
    (horders : ∀ side, b'.ordersOf side = (b.ordersOf side).filter (fun o => ¬ (o.account = a ∧ o.id ∈ ids)))
    (htrade : b'.lastTrade = b.lastTrade) :
    RejectsAtomically P b (.newOrder a i s p q .limit .postOnly ts) b'
      (ids.map (fun id => Event.cancelled a id) ++ [.rejected a i .wouldCross] ++ tail) := by
  have hids : (ids.map (fun id => Event.cancelled a id)).filter Event.isAnswer = [] := by
    apply filter_answers_quiet
    rw [List.forall_mem_map]
    exact fun _ _ => rfl
  have hmem : ∀ a' i' reason, .rejected a' i' reason ∈ ids.map (fun id => Event.cancelled a id) ++
      [.rejected a i .wouldCross] ++ tail → a' = a ∧ i' = i ∧ reason = .wouldCross := by
    intro a' i' reason hm
    have hm := rejected_mem hm
    rw [List.filter_append, List.filter_append, hids, hanswers] at hm
    simpa [Event.isAnswer] using hm
  refine ⟨?_, ?_, ?_⟩
  · intro a' i' reason hm hr
    exact absurd (hmem a' i' reason hm).2.2 hr
  · intro a' i' hm
    obtain ⟨rfl, rfl, -⟩ := hmem a' i' _ hm
    exact ⟨s, p, q, ts, ids, tail, rfl, by simp, htail, hcancels, horders, htrade⟩
  · intro hno
    exact absurd (by simp) (hno a i .wouldCross)

/-- **One command of the engine.** -/
theorem Sim.rejectsAtomically (h : Sim P ⊤ b r) (hP : P.Total) (hc : c.Checked P)
    (hd : Engine.dispatch P b c = .ok (b', evs))
    (htail : tail = [] ∨ (b'.topOfBook ≠ b.topOfBook ∧ ∃ bid ask, tail = [.bookUpdate bid ask])) :
    RejectsAtomically P b c b' (evs ++ tail) := by
  have hanswers : tail.filter Event.isAnswer = [] := by
    rcases htail with rfl | ⟨-, bid, ask, rfl⟩
    · rfl
    · rfl
  have htold : Told c evs := by
    rw [(h.dispatch_of_ok hc (Fits.of_total hP _) hd).1]
    exact h.wf.dispatch_told P c
  cases htold with
  | refused other =>
    obtain rfl := dispatch_refused hd other
    rcases htail with rfl | ⟨hmoved, -⟩
    · exact RejectsAtomically.of_refused other
    · exact absurd rfl hmoved
  | @crossed a i s p q ts ids =>
    obtain ⟨hcancels, horders, htrade⟩ := h.postonly_crossed hd
    exact RejectsAtomically.of_crossed hanswers (htail.imp_right And.right) hcancels horders htrade
  | @accepted a i s p q k t ts x evs quiet =>
    have hone : (evs ++ [Event.accepted a i x] ++ tail).filter Event.isAnswer = [.accepted a i x] := by
      rw [List.filter_append, List.filter_append, filter_answers_quiet quiet, hanswers]
      rfl
    refine RejectsAtomically.of_none (by rw [hone]; simp) ?_ (by simp)
    intro a' i' side' p' q' k' t' ts' he
    simp only [Command.newOrder.injEq] at he
    obtain ⟨rfl, rfl, -⟩ := he
    exact ⟨x, hone⟩
  | @replaced a i p q kept evs quiet =>
    have hone : (Event.replaced a i q kept :: evs ++ tail).filter Event.isAnswer = [.replaced a i q kept] := by
      rw [List.cons_append, List.filter_cons_of_pos rfl, List.filter_append, filter_answers_quiet quiet, hanswers]
      rfl
    refine RejectsAtomically.of_none (by rw [hone]; simp) (by simp) ?_
    intro a' i' p' q' he
    simp only [Command.cancelReplace.injEq] at he
    obtain ⟨rfl, rfl, -, rfl⟩ := he
    exact ⟨kept, hone⟩
  | silent quiet new amend =>
    have hnone : (evs ++ tail).filter Event.isAnswer = [] := by
      rw [List.filter_append, filter_answers_quiet quiet, hanswers]
      rfl
    exact RejectsAtomically.of_none (by rw [hnone]; simp) (fun a i s p q k t ts he => absurd he (new a i s p q k t ts))
      (fun a i p q he => absurd he (amend a i p q))

end

/-- **Rejections are atomic**, but for the PostOnly case: from every state reachable through the gate and for every
command. -/
theorem rejections_atomic {P : Profile} (hP : P.Total) (config : RiskConfig) {cmds : List Command}
    (hcmds : ∀ c ∈ cmds, c.Checked P) {s : System} {evss : List (List (ℕ × Event))}
    (hrun : (System.new config).runFrom P cmds = .ok (s, evss)) {c : Command} (hc : c.Checked P) {s' : System}
    {evs : List (ℕ × Event)} (hstep : s.processCommand P c = .ok (s', evs)) :
    RejectsAtomically P s.engine.book c s'.engine.book (evs.map Prod.snd) := by
  obtain ⟨r, hs⟩ := System.sim_of_checked hP hcmds hrun
  rcases System.processCommand_gate hstep with ⟨ev, hg, he, rfl⟩ | ⟨-, evs', ha, rfl⟩
  · obtain ⟨-, hrej, -⟩ := RiskState.preApplyCheck_cases hg
    obtain ⟨a, i, reason, rfl⟩ := hrej ev rfl
    rw [he]
    exact RejectsAtomically.of_refused (RiskState.preApplyCheck_reason hg)
  · rw [System.map_snd_numbered]
    obtain ⟨core, tail, hd, rfl, htail⟩ := Engine.apply_inv ha
    exact hs.rejectsAtomically hP hc hd htail

/-- Two own asks stand ahead of a foreign one. A PostOnly bid across both loses them and is rejected; the same bid as
a FOK for more than there is leaves the book as it was. -/
theorem rejections_atomic_postOnly :
    ∃ s evss s₁ evs₁ s₂ evs₂, (System.new .default).runFrom .release
        [.newOrder 1 1 .sell 100 3 .limit .gtc 0, .newOrder 1 2 .sell 101 2 .limit .gtc 0,
         .newOrder 2 1 .sell 101 4 .limit .gtc 0] = .ok (s, evss) ∧
      s.processCommand .release (.newOrder 1 9 .buy 101 5 .limit .postOnly 0) = .ok (s₁, evs₁) ∧
      evs₁.map Prod.snd = [.cancelled 1 1, .cancelled 1 2, .rejected 1 9 .wouldCross,
        .bookUpdate none (some (101, 4))] ∧
      s.engine.book.cancelEach .release 1 [1, 2] = .ok (s₁.engine.book, [[.cancelled 1 1], [.cancelled 1 2]]) ∧
      s.processCommand .release (.newOrder 1 9 .buy 101 5 .limit .fok 0) = .ok (s₂, evs₂) ∧
      evs₂.map Prod.snd = [.rejected 1 9 .notFullyFillable] ∧ s₂.engine.book = s.engine.book := by
  obtain ⟨⟨s, evss⟩, hrun, hpost, hfok⟩ := exists_ok_of_decide (x := (System.new .default).runFrom .release
      [.newOrder 1 1 .sell 100 3 .limit .gtc 0, .newOrder 1 2 .sell 101 2 .limit .gtc 0,
       .newOrder 2 1 .sell 101 4 .limit .gtc 0])
    (p := fun v => (v.1.processCommand .release (.newOrder 1 9 .buy 101 5 .limit .postOnly 0)).toOption.map
        (fun w => w.2.map Prod.snd) = some [.cancelled 1 1, .cancelled 1 2, .rejected 1 9 .wouldCross,
          .bookUpdate none (some (101, 4))] ∧
      (v.1.processCommand .release (.newOrder 1 9 .buy 101 5 .limit .fok 0)).toOption.map
        (fun w => w.2.map Prod.snd) = some [.rejected 1 9 .notFullyFillable]) (by decide +kernel)
  obtain ⟨⟨s₁, evs₁⟩, hstep₁, hevs₁⟩ := exists_ok_of_map_toOption hpost
  obtain ⟨⟨s₂, evs₂⟩, hstep₂, hevs₂⟩ := exists_ok_of_map_toOption hfok
  have hcmds : ∀ c ∈ ([.newOrder 1 1 .sell 100 3 .limit .gtc 0, .newOrder 1 2 .sell 101 2 .limit .gtc 0,
      .newOrder 2 1 .sell 101 4 .limit .gtc 0] : List Command), c.Checked .release := fun c hc =>
    ((by decide : ∀ c ∈ ([.newOrder 1 1 .sell 100 3 .limit .gtc 0, .newOrder 1 2 .sell 101 2 .limit .gtc 0,
      .newOrder 2 1 .sell 101 4 .limit .gtc 0] : List Command), c.Decodable) c hc).checked
  have h₁ := rejections_atomic Profile.release_total .default hcmds hrun
    (c := .newOrder 1 9 .buy 101 5 .limit .postOnly 0)
    ⟨by decide, by decide⟩ hstep₁
  have h₂ := rejections_atomic Profile.release_total .default hcmds hrun (c := .newOrder 1 9 .buy 101 5 .limit .fok 0)
    ⟨by decide, by decide⟩ hstep₂
  rw [hevs₁] at h₁
  rw [hevs₂] at h₂
  obtain ⟨-, -, -, -, ids, tail, -, hids, -, hcancels, -⟩ := h₁.crossed 1 9 (by decide)
  obtain ⟨-, hsame⟩ := h₂.alone 1 9 .notFullyFillable (by decide) (by decide)
  obtain rfl : ids = [1, 2] := by
    match ids, hids with
    | [x, y], hids =>
      simp only [List.map_cons, List.map_nil, List.cons_append, List.nil_append, List.cons.injEq, Event.cancelled.injEq,
        true_and] at hids
      rw [← hids.1, ← hids.2.1]
  exact ⟨s, evss, s₁, evs₁, s₂, evs₂, hrun, hstep₁, hevs₁, hcancels, hstep₂, hevs₂, hsame⟩

end MatchingEngine
