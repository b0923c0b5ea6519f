import MatchingEngine.Main.Composition
import MatchingEngine.Main.Precheck
import MatchingEngine.Ref.Touch

/-!
# The order types share one sweep

The four limit order types are written as four functions, and two of them look before they match: FOK counts the
foreign depth, PostOnly walks the own orders in its way. One sweep of the book decides all four
(`order_types_share_one_sweep`): what it matches is what GTC and IOC report; FOK is the IOC order or nothing, and
PostOnly is the GTC order or the cancels the sweep would have begun with.

* `Ref.WF.sweep_ownPrefix`: a sweep begins with the own orders a PostOnly order takes out.
* `Ref.WF.sweep_noForeign`: with no foreign order in its way it does nothing else.
* `Engine.cancels_ok`: cancelling those orders one by one ends in the same state.
-/

namespace MatchingEngine

/-- An order taken out. -/
def Event.isCancelled : Event → Bool
  | .cancelled .. => true
  | _ => false

/-- What commands emit, without the top-of-book updates. -/
def withoutUpdates (evs : List Event) : List Event := evs.filter (fun ev => !ev.isBookUpdate)

theorem withoutUpdates_append {evs upd : List Event} (hupd : ∀ ev ∈ upd, ev.isBookUpdate = true) :
    withoutUpdates (evs ++ upd) = withoutUpdates evs := by
  unfold withoutUpdates
  have hnone : upd.filter (fun ev => !ev.isBookUpdate) = [] := by
    rw [List.filter_eq_nil_iff]
    intro ev hev
    simp [hupd ev hev]
  rw [List.filter_append, hnone, List.append_nil]

namespace Ref

variable {r : Ref} {a i limit p q : ℕ} {s : Side}

/-- **A sweep begins with the own orders in its way**, up to the first foreign one. -/
theorem WF.sweep_ownPrefix (h : r.WF) (hq : 0 < q) (i : ℕ) :
    (r.sweep a i s limit q).2.2.takeWhile Event.isCancelled =
      (r.ownPrefix a s limit).map (fun o => .cancelled o.account o.id) := by
  refine h.clear_induct (motive := fun r _ own => (r.sweep a i s limit q).2.2.takeWhile Event.isCancelled =
    own.map (fun o => .cancelled o.account o.id)) a s limit ?_ ?_
  · intro r h hfor
    cases hc : r.crossing s limit with
    | nil =>
      rw [sweep_nil hc]
      rfl
    | cons o l =>
      -- the first order is foreign, and a fill comes first
      obtain ⟨o, l, hL, hx⟩ := crossing_ne_nil (by rw [hc]; exact List.cons_ne_nil o l)
      have ha := hfor o l hL hx
      by_cases hle : o.qty ≤ q
      · rw [sweep_fill h hL hx hq ha hle]
        rfl
      · rw [sweep_part hL hx hq ha (by omega)]
        rfl
  · intro r o l r' own h hL hx ha ih
    rw [sweep_own h hL hx hq ha]
    dsimp only
    rw [List.takeWhile_cons_of_pos rfl, ih]
    rfl

/-- **With no foreign order in its way** a sweep takes the own orders out and has its whole quantity left. -/
theorem WF.sweep_noForeign (h : r.WF) (hq : 0 < q) (hno : ¬ ∃ o ∈ r.crossing s limit, o.account ≠ a) (i : ℕ) :
    r.sweep a i s limit q =
      (r.clearOwn a s limit, q, (r.ownPrefix a s limit).map (fun o => .cancelled o.account o.id)) := by
  revert hno
  refine h.clear_induct (motive := fun r r' own => (¬ ∃ o ∈ r.crossing s limit, o.account ≠ a) →
    r.sweep a i s limit q = (r', q, own.map (fun o => .cancelled o.account o.id))) a s limit ?_ ?_
  · intro r h hfor hno
    have hnil : r.crossing s limit = [] := by
      by_contra hne
      obtain ⟨o, l, hL, hx⟩ := crossing_ne_nil hne
      exact hno ⟨o, by rw [crossing_cons hL hx]; exact List.mem_cons_self, hfor o l hL hx⟩
    rw [sweep_nil hnil]
    rfl
  · intro r o l r' own h hL hx ha ih hno
    have hrest : ¬ ∃ o' ∈ (r.remove s.opposite o).crossing s limit, o'.account ≠ a := by
      rintro ⟨o', ho', ha'⟩
      exact hno ⟨o', by rw [h.crossing_head hL hx]; exact List.mem_cons_of_mem _ ho', ha'⟩
    rw [sweep_own h hL hx hq ha, ih hrest]
    rfl

/-- A foreign order in its way is traded with. -/
theorem WF.sweep_trades (h : r.WF) (hq : 0 < q) (hfor : ∃ o ∈ r.crossing s limit, o.account ≠ a) (i : ℕ) :
    ∃ ev ∈ (r.sweep a i s limit q).2.2, ev.isTrade = true := by
  revert hfor
  refine h.clear_induct (motive := fun r _ _ => (∃ o ∈ r.crossing s limit, o.account ≠ a) →
    ∃ ev ∈ (r.sweep a i s limit q).2.2, ev.isTrade = true) a s limit ?_ ?_
  · rintro r h hfirst ⟨o, ho, -⟩
    obtain ⟨o, l, hL, hx⟩ := crossing_ne_nil (List.ne_nil_of_mem ho)
    have ha := hfirst o l hL hx
    by_cases hle : o.qty ≤ q
    · rw [sweep_fill h hL hx hq ha hle]
      exact ⟨.trade o.price o.qty s, by simp [fillEvents], rfl⟩
    · rw [sweep_part hL hx hq ha (by omega)]
      exact ⟨.trade o.price q s, by simp [fillEvents], rfl⟩
  · rintro r o l r' own h hL hx ha ih ⟨o', ho', ha'⟩
    rw [h.crossing_head hL hx, List.mem_cons] at ho'
    rcases ho' with rfl | ho'
    · exact absurd ha ha'
    · obtain ⟨ev, hev, htrade⟩ := ih ⟨o', ho', ha'⟩
      rw [sweep_own h hL hx hq ha]
      exact ⟨ev, List.mem_cons_of_mem _ hev, htrade⟩

/-- A sweep prints exactly when there is a foreign order in its way. -/
theorem WF.sweep_trades_iff (h : r.WF) (hq : 0 < q) (i : ℕ) :
    (∃ ev ∈ (r.sweep a i s limit q).2.2, ev.isTrade = true) ↔ ∃ o ∈ r.crossing s limit, o.account ≠ a := by
  refine ⟨fun ⟨ev, hev, htrade⟩ => ?_, fun hfor => h.sweep_trades hq hfor i⟩
  by_contra hno
  rw [h.sweep_noForeign hq hno] at hev
  obtain ⟨o, -, rfl⟩ := List.mem_map.1 hev
  cases htrade

/-- FOK under a new key: the IOC order if the sweep leaves nothing, or nothing at all. -/
theorem WF.submitFok_fresh (h : r.WF) (hk : r.find (a, i) = none) :
    r.submitFok a i s p q = if (r.sweep a i s p q).2.1 = 0 then r.submitIoc a i s p q
      else (r, [.rejected a i .notFullyFillable]) := by
  have hleft : (r.sweep a i s p q).2.1 = q - r.foreignDepth a s p := h.sweep_remaining
  have hiff : (r.sweep a i s p q).2.1 = 0 ↔ q ≤ r.foreignDepth a s p := by omega
  rw [submitIoc_fresh hk]
  unfold submitFok unlessDuplicate
  rw [hk]
  simp only [hiff]
  rfl

/-- PostOnly under a new key: the GTC order if the sweep prints nothing, or the cancels it begins with. -/
theorem WF.submitPostonly_fresh (h : r.WF) (hq : 0 < q) (hk : r.find (a, i) = none) :
    r.submitPostonly a i s p q =
      if ∃ ev ∈ (r.sweep a i s p q).2.2, ev.isTrade = true then
        (r.clearOwn a s p, (r.sweep a i s p q).2.2.takeWhile Event.isCancelled ++ [.rejected a i .wouldCross])
      else r.submitGtc a i s p q := by
  have hpost : r.submitPostonly a i s p q = if ∃ o ∈ r.crossing s p, o.account ≠ a then
      (r.clearOwn a s p, (r.ownPrefix a s p).map (fun o => .cancelled o.account o.id) ++ [.rejected a i .wouldCross])
      else ((r.clearOwn a s p).rest s ⟨a, i, p, q⟩,
        (r.ownPrefix a s p).map (fun o => .cancelled o.account o.id) ++ [.accepted a i q]) := by
    unfold submitPostonly unlessDuplicate
    rw [hk]
    rfl
  simp only [h.sweep_trades_iff hq i, h.sweep_ownPrefix hq i]
  rw [hpost]
  by_cases hfor : ∃ o ∈ r.crossing s p, o.account ≠ a
  · rw [if_pos hfor, if_pos hfor]
  · rw [if_neg hfor, if_neg hfor, submitGtc_fresh hk, h.sweep_noForeign hq hfor i]
    dsimp only
    rw [Ref.restRemainder, if_pos hq]

theorem apply_congr {P : Profile} {c c' : Command} (hd : r.dispatch P c = r.dispatch P c') :
    r.apply P c = r.apply P c' := by
  unfold apply
  rw [hd]

/-- A command that leaves the state alone updates nothing. -/
theorem apply_refused {P : Profile} {c : Command} {evs : List Event} (hd : r.dispatch P c = (r, evs)) :
    r.apply P c = (r, evs) := by
  unfold apply
  rw [hd]
  exact Prod.ext rfl (if_neg (not_not.2 rfl))

end Ref

namespace Engine

variable {P : Profile} {e : Engine} {r : Ref} {a limit : ℕ} {s : Side}

/-- Every further sequence of commands emits the same events, or panics in the same way. -/
def SameFuture (P : Profile) (e e' : Engine) : Prop :=
  ∀ more, (∀ c ∈ more, c.Checked P) → (e.runFrom P more).map Prod.snd = (e'.runFrom P more).map Prod.snd

theorem Alike.sameFuture {e' : Engine} (h : Alike P e e') (hP : P.Total) : e.SameFuture P e' := fun _ hmore =>
  h.runFrom hP hmore

/-- The own orders in an order's way, cancelled one by one. -/
theorem cancels_ok (hP : P.Total) (hs : Sim P ⊤ e.book r) (a : ℕ) (s : Side) (limit : ℕ) :
    ∃ e' evss, e.runFrom P (((r.ownPrefix a s limit).map Order.id).map (fun id => .cancelOrder a id)) = .ok (e', evss) ∧
      withoutUpdates evss.flatten =
        ((r.ownPrefix a s limit).map Order.id).map (fun id => .cancelled a id) ∧
      Sim P ⊤ e'.book (r.clearOwn a s limit) := by
  have h := hs.wf
  revert e
  refine h.clear_induct (motive := fun r r' own => ∀ {e : Engine}, Sim P ⊤ e.book r →
    ∃ e' evss, e.runFrom P ((own.map Order.id).map (fun id => .cancelOrder a id)) = .ok (e', evss) ∧
      withoutUpdates evss.flatten = (own.map Order.id).map (fun id => .cancelled a id) ∧
      Sim P ⊤ e'.book r') a s limit ?_ ?_
  · intro r h hfor e hs
    exact ⟨e, [], rfl, rfl, hs⟩
  · rintro r o l r' own h hL hx rfl ih e hs
    have hcancel : r.dispatch P (.cancelOrder o.account o.id) =
        (r.remove s.opposite o, [.cancelled o.account o.id]) := by
      show r.cancel o.account o.id = _
      unfold Ref.cancel
      rw [show r.find (o.account, o.id) = some (s.opposite, o) from h.find_mem (Ref.mem_of_cons hL)]
    obtain ⟨e₁, upd, he₁, hupd, hs₁⟩ :=
      apply_dispatch hP hs (c := .cancelOrder o.account o.id) trivial (by simp) hcancel
    obtain ⟨e', evss, hrun, hevs, hs'⟩ := ih hs₁
    refine ⟨e', ([.cancelled o.account o.id] ++ upd) :: evss, run_cons_ok he₁ hrun, ?_, hs'⟩
    rw [List.flatten_cons, withoutUpdates, List.filter_append]
    show withoutUpdates ([.cancelled o.account o.id] ++ upd) ++ withoutUpdates evss.flatten = _
    rw [withoutUpdates_append hupd, hevs]
    rfl

end Engine

/-- **One sweep decides all four limit order types.** From every state an engine reaches, for every limit order whose
key does not rest, there are the matches of one sweep and the quantity it leaves such that GTC and IOC report those
matches, and what rests of them; FOK emits what IOC emits if nothing is left, and its rejection alone otherwise;
PostOnly emits what GTC emits if nothing is printed, and otherwise the cancels the matches begin with and its
rejection. Whatever is sent next, FOK's and PostOnly's engines emit the same as IOC's and GTC's, as the engine before,
or as one where the account cancelled those orders itself. -/
theorem order_types_share_one_sweep {P : Profile} (hP : P.Total) {cmds : List Command}
    (hcmds : ∀ c ∈ cmds, c.Checked P) {e : Engine} {evss : List (List Event)}
    (hrun : Engine.new.runFrom P cmds = .ok (e, evss)) {a i : ℕ} {s : Side} {p q ts : ℕ}
    (hc : (Command.newOrder a i s p q .limit .gtc ts).Checked P) (hnew : e.book.orderIndex.lookup (a, i) = none) :
    ∃ (gtc ioc fok post : Engine × List Event) (matched : List Event) (left : ℕ) (updGtc updIoc : List Event),
      e.apply P (.newOrder a i s p q .limit .gtc ts) = .ok gtc ∧
      e.apply P (.newOrder a i s p q .limit .ioc ts) = .ok ioc ∧
      e.apply P (.newOrder a i s p q .limit .fok ts) = .ok fok ∧
      e.apply P (.newOrder a i s p q .limit .postOnly ts) = .ok post ∧
      gtc.2 = matched ++ .accepted a i left :: updGtc ∧ ioc.2 = matched ++ .accepted a i 0 :: updIoc ∧
      (∀ ev ∈ matched, ev.isMatch = true) ∧ (∀ ev ∈ updGtc ++ updIoc, ev.isBookUpdate = true) ∧
      (left = 0 → fok.2 = ioc.2 ∧ fok.1.SameFuture P ioc.1) ∧
      (left ≠ 0 → fok.2 = [.rejected a i .notFullyFillable] ∧ fok.1.SameFuture P e) ∧
      ((¬ ∃ ev ∈ matched, ev.isTrade = true) → post.2 = gtc.2 ∧ post.1.SameFuture P gtc.1) ∧
      ((∃ ev ∈ matched, ev.isTrade = true) →
        ∃ (own : List ℕ) (upd : List Event) (cancelled : Engine × List (List Event)),
        matched.takeWhile Event.isCancelled = own.map (fun id => .cancelled a id) ∧
        post.2 = own.map (fun id => .cancelled a id) ++ .rejected a i .wouldCross :: upd ∧
        (∀ ev ∈ upd, ev.isBookUpdate = true) ∧
        e.runFrom P (own.map (fun id => .cancelOrder a id)) = .ok cancelled ∧
        withoutUpdates cancelled.2.flatten = own.map (fun id => .cancelled a id) ∧
        post.1.SameFuture P cancelled.1) := by
  obtain ⟨r, hs⟩ := sim_of_checked_run hP hcmds hrun
  have hk : r.find (a, i) = none := hs.find_none hnew
  have hq : 0 < q := Nat.pos_of_ne_zero hc.1
  have hgtc : r.dispatch P (.newOrder a i s p q .limit .gtc ts) = _ := Ref.submitGtc_fresh hk
  have hioc : r.dispatch P (.newOrder a i s p q .limit .ioc ts) = _ := Ref.submitIoc_fresh hk
  have hfok : r.dispatch P (.newOrder a i s p q .limit .fok ts) = _ := hs.wf.submitFok_fresh hk
  have hpost : r.dispatch P (.newOrder a i s p q .limit .postOnly ts) = _ := hs.wf.submitPostonly_fresh hq hk
  have happly : ∀ t, ∃ e', e.apply P (.newOrder a i s p q .limit t ts) =
      .ok (e', (r.apply P (.newOrder a i s p q .limit t ts)).2) ∧
      Sim P ⊤ e'.book (r.apply P (.newOrder a i s p q .limit t ts)).1 :=
    fun t => hs.apply (c := .newOrder a i s p q .limit t ts) hc (Fits.of_total hP _) (fun h => by cases h)
  obtain ⟨e₁, he₁, hs₁⟩ := happly .gtc
  obtain ⟨e₂, he₂, hs₂⟩ := happly .ioc
  obtain ⟨e₃, he₃, hs₃⟩ := happly .fok
  obtain ⟨e₄, he₄, hs₄⟩ := happly .postOnly
  obtain ⟨upd₁, hevs₁, hupd₁⟩ := r.apply_updates P (.newOrder a i s p q .limit .gtc ts)
  obtain ⟨upd₂, hevs₂, hupd₂⟩ := r.apply_updates P (.newOrder a i s p q .limit .ioc ts)
  obtain ⟨upd₄, hevs₄, hupd₄⟩ := r.apply_updates P (.newOrder a i s p q .limit .postOnly ts)
  rw [hgtc, List.append_assoc, List.singleton_append] at hevs₁
  rw [hioc, List.append_assoc, List.singleton_append] at hevs₂
  refine ⟨_, _, _, _, (r.sweep a i s p q).2.2, (r.sweep a i s p q).2.1, upd₁, upd₂, he₁, he₂, he₃, he₄, hevs₁, hevs₂,
    hs.wf.sweep_matches a i s p q, List.forall_mem_append.2 ⟨hupd₁, hupd₂⟩, ?_, ?_, ?_, ?_⟩
  · intro hzero
    rw [if_pos hzero] at hfok
    have hsame := Ref.apply_congr (hfok.trans (Ref.submitIoc_fresh hk) |>.trans hioc.symm)
    rw [hsame] at hs₃ ⊢
    exact ⟨rfl, Engine.Alike.sameFuture ⟨_, hs₃, hs₂⟩ hP⟩
  · intro hleft
    rw [if_neg hleft] at hfok
    have hsame := Ref.apply_refused hfok
    rw [hsame] at hs₃ ⊢
    exact ⟨rfl, Engine.Alike.sameFuture ⟨_, hs₃, hs⟩ hP⟩
  · intro hquiet
    rw [if_neg hquiet] at hpost
    have hsame := Ref.apply_congr (hpost.trans (Ref.submitGtc_fresh hk) |>.trans hgtc.symm)
    rw [hsame] at hs₄ ⊢
    exact ⟨rfl, Engine.Alike.sameFuture ⟨_, hs₄, hs₁⟩ hP⟩
  · intro htrade
    rw [if_pos htrade, hs.wf.sweep_ownPrefix hq, Ref.ownPrefix_cancelled] at hpost
    rw [hpost, List.append_assoc, List.singleton_append] at hevs₄
    have hstate : (r.apply P (.newOrder a i s p q .limit .postOnly ts)).1 = r.clearOwn a s p := congrArg Prod.fst hpost
    rw [hstate] at hs₄
    obtain ⟨e₅, evss₅, hrun₅, hreports, hs₅⟩ := Engine.cancels_ok hP hs a s p
    refine ⟨(r.ownPrefix a s p).map Order.id, upd₄, (e₅, evss₅), ?_, hevs₄, hupd₄, hrun₅, hreports,
      Engine.Alike.sameFuture ⟨_, hs₄, hs₅⟩ hP⟩
    rw [hs.wf.sweep_ownPrefix hq, Ref.ownPrefix_cancelled]

/-- Eight lots with an own order and five foreign lots in their way: three are left, so FOK is refused; five print, so
PostOnly is refused after the own order's cancel. -/
theorem order_types_share_one_sweep_around_own :
    ∃ e evss fok post cancelled upd, Engine.new.runFrom .release
        [.newOrder 2 1 .sell 100 4 .limit .gtc 0, .newOrder 1 1 .sell 101 5 .limit .gtc 0] = .ok (e, evss) ∧
      e.apply .release (.newOrder 2 2 .buy 101 8 .limit .fok 0) = .ok (fok, [.rejected 2 2 .notFullyFillable]) ∧
      e.apply .release (.newOrder 2 2 .buy 101 8 .limit .postOnly 0) =
        .ok (post, .cancelled 2 1 :: .rejected 2 2 .wouldCross :: upd) ∧
      e.runFrom .release [.cancelOrder 2 1] = .ok cancelled ∧
      fok.SameFuture .release e ∧ post.SameFuture .release cancelled.1 := by
  obtain ⟨⟨e, evss⟩, hrun, hnew, hevs⟩ := exists_ok_of_decide (x := Engine.new.runFrom .release
      [.newOrder 2 1 .sell 100 4 .limit .gtc 0, .newOrder 1 1 .sell 101 5 .limit .gtc 0])
    (p := fun v => v.1.book.orderIndex.lookup (2, 2) = none ∧
      (v.1.apply .release (.newOrder 2 2 .buy 101 8 .limit .gtc 0)).toOption.map Prod.snd =
        some [.cancelled 2 1, .filled 2 2 .buy 101 5 3 .partiallyFilled, .filled 1 1 .sell 101 5 0 .filled,
          .trade 101 5 .buy, .accepted 2 2 3, .bookUpdate (some (101, 3)) none]) (by decide +kernel)
  have hdec : ∀ c ∈ [Command.newOrder 2 1 .sell 100 4 .limit .gtc 0, .newOrder 1 1 .sell 101 5 .limit .gtc 0],
      c.Decodable := by decide
  have hc : (Command.newOrder 2 2 .buy 101 8 .limit .gtc 0).Checked .release := ⟨by decide, fun h => by cases h⟩
  obtain ⟨gtc, ioc, ⟨fok, evsFok⟩, ⟨post, evsPost⟩, matched, left, updGtc, updIoc, hgtc, -, hfok, hpost, hevsGtc, -,
    hmatch, hupd, -, hnone, -, hcross⟩ :=
    order_types_share_one_sweep Profile.release_total (fun c hc => (hdec c hc).checked) hrun hc hnew
  rw [hgtc] at hevs
  have hevs : matched ++ .accepted 2 2 left :: updGtc = _ := hevsGtc.symm.trans (Option.some.inj hevs)
  -- the matches are everything before the acceptance
  have hmatched : matched = [.cancelled 2 1, .filled 2 2 .buy 101 5 3 .partiallyFilled,
      .filled 1 1 .sell 101 5 0 .filled, .trade 101 5 .buy] := by
    have htake := congrArg (List.takeWhile Event.isMatch) hevs
    rw [List.takeWhile_append_of_pos hmatch, List.takeWhile_cons_of_neg Bool.false_ne_true, List.append_nil] at htake
    exact htake
  subst hmatched
  have htail : Event.accepted 2 2 left :: updGtc = [.accepted 2 2 3, .bookUpdate (some (101, 3)) none] :=
    List.append_cancel_left hevs
  obtain rfl : left = 3 := by
    injection htail with hacc
    injection hacc
  obtain ⟨rfl, hfuture⟩ := hnone (by decide)
  obtain ⟨own, upd, cancelled, hown, rfl, -, hcancels, -, hfuture'⟩ := hcross ⟨.trade 101 5 .buy, by simp, rfl⟩
  have hids : own.map (fun id => Event.cancelled 2 id) = [1].map (fun id => Event.cancelled 2 id) := hown.symm
  obtain rfl : own = [1] := List.map_injective_iff.2 (fun x y h => by injection h) hids
  exact ⟨e, evss, fok, post, cancelled, upd, hrun, hfok, hpost, hcancels, hfuture, hfuture'⟩

end MatchingEngine
