import MatchingEngine.Proof.Refine
import MatchingEngine.Ref.Step

/-!
# Immediate-or-cancel, in two commands

An IOC order is a GTC order whose remainder is cancelled at once. The two ways leave different books:
the remainder took a slot of the arena and gave it back, and its account has an entry. But both
stand for one state of the reference book, and nothing an engine does tells two such books apart
(`ioc_is_gtc_then_cancel`).

* `Ref.WF.removeKey_restRemainder`: on the reference book the two ways end in one state.
* `Engine.Alike.runFrom`: engines that stand for one state emit the same, whatever comes.
-/

namespace MatchingEngine

def Event.isBookUpdate : Event → Bool
  | .bookUpdate .. => true
  | _ => false

namespace Ref

variable {r : Ref} {a i : ℕ} {s : Side} {p q : ℕ}

/-- A GTC order under a new key. -/
theorem submitGtc_fresh (hk : r.find (a, i) = none) :
    r.submitGtc a i s p q = ((r.sweep a i s p q).1.restRemainder a i s p (r.sweep a i s p q).2.1,
      (r.sweep a i s p q).2.2 ++ [.accepted a i (r.sweep a i s p q).2.1]) := by
  unfold submitGtc unlessDuplicate
  rw [hk]
  rfl

/-- An IOC order under a new key. -/
theorem submitIoc_fresh (hk : r.find (a, i) = none) :
    r.submitIoc a i s p q = ((r.sweep a i s p q).1, (r.sweep a i s p q).2.2 ++ [.accepted a i 0]) := by
  unfold submitIoc unlessDuplicate
  rw [hk]
  rfl

/-- What rests of an order is found under its key. -/
theorem WF.find_restRemainder (h : r.WF) (hk : r.find (a, i) = none) :
    (r.restRemainder a i s p q).find (a, i) = if 0 < q then some (s, ⟨a, i, p, q⟩) else none := by
  unfold Ref.restRemainder
  split
  · next hq =>
    have hmem : Order.mk a i p q ∈ (r.rest s ⟨a, i, p, q⟩).side s :=
      (r.rest_perm s _).mem_iff.2 List.mem_cons_self
    exact (h.rest (o := ⟨a, i, p, q⟩) hk hq).find_mem hmem
  · exact hk

theorem WF.isSome_find_restRemainder (h : r.WF) (hk : r.find (a, i) = none) :
    ((r.restRemainder a i s p q).find (a, i)).isSome = true ↔ 0 < q := by
  rw [h.find_restRemainder hk]
  by_cases hq : 0 < q
  · rw [if_pos hq]
    exact iff_of_true rfl hq
  · rw [if_neg hq]
    exact iff_of_false (by simp) hq

/-- **Removing what rests of an order** leaves the book as it was. -/
theorem WF.removeKey_restRemainder (h : r.WF) (hk : r.find (a, i) = none) :
    (r.restRemainder a i s p q).removeKey (a, i) = r := by
  unfold Ref.removeKey
  rw [h.find_restRemainder hk]
  by_cases hq : 0 < q
  · rw [if_pos hq]
    unfold Ref.restRemainder
    rw [if_pos hq]
    exact h.remove_rest hk
  · rw [if_neg hq]
    unfold Ref.restRemainder
    rw [if_neg hq]

/-- A command's events, and a top-of-book update or none. -/
theorem apply_updates (P : Profile) (r : Ref) (c : Command) :
    ∃ upd, (r.apply P c).2 = (r.dispatch P c).2 ++ upd ∧ ∀ ev ∈ upd, ev.isBookUpdate = true := by
  rcases r.apply_emits P c with he | ⟨bid, ask, he⟩
  · exact ⟨[], by rw [he, List.append_nil], by simp⟩
  · exact ⟨_, he, by simp [Event.isBookUpdate]⟩

end Ref

namespace Engine

/-- Cancel the order if it rests. -/
def cancelIfResting (P : Profile) (e : Engine) (a i : ℕ) : Except Panic (Engine × List Event) :=
  if (e.book.orderIndex.lookup (a, i)).isSome then e.apply P (.cancelOrder a i) else .ok (e, [])

/-- Two engines whose books stand for one state; slots, links and empty entries may differ. -/
def Alike (P : Profile) (e e' : Engine) : Prop := ∃ r, Sim P ⊤ e.book r ∧ Sim P ⊤ e'.book r

variable {P : Profile} {e e' : Engine} {c : Command}

/-- **One command** does not tell them apart. -/
theorem Alike.apply (h : Alike P e e') (hP : P.Total) (hc : c.Checked P) :
    Agree (Alike P) id (e.apply P c) (e'.apply P c) := by
  obtain ⟨r, hs, hs'⟩ := h
  by_cases hz : c = .snapshot ∧ ∃ o ∈ r.orders, o.price = 0
  · -- both snapshots meet the zero price
    obtain ⟨rfl, o, ho, hp⟩ := hz
    rw [hs.apply_zero ho hp, hs'.apply_zero ho hp]
    exact .error _
  · have hnz : c = .snapshot → ∀ o ∈ r.orders, o.price ≠ 0 := fun he o ho hp => hz ⟨he, o, ho, hp⟩
    obtain ⟨e₁, he₁, hs₁⟩ := hs.apply hc (Fits.of_total hP _) hnz
    obtain ⟨e₁', he₁', hs₁'⟩ := hs'.apply hc (Fits.of_total hP _) hnz
    rw [he₁, he₁']
    exact .ok ⟨_, hs₁, hs₁'⟩

/-- The cancel, if there is something to cancel. -/
theorem cancelIfResting_ok {r : Ref} (hs : Sim P ⊤ e.book r) (hP : P.Total) (a i : ℕ) :
    ∃ e' upd, e.cancelIfResting P a i = .ok (e', if (r.find (a, i)).isSome then .cancelled a i :: upd else []) ∧
      (∀ ev ∈ upd, ev.isBookUpdate = true) ∧ Sim P ⊤ e'.book (r.removeKey (a, i)) := by
  unfold cancelIfResting Ref.removeKey
  rcases hs.lookup (a, i) with ⟨hl, hf⟩ | ⟨x, n, hl, -, -, hf⟩
  · rw [hl, hf]
    exact ⟨e, [], rfl, by simp, hs⟩
  · rw [hl, hf]
    obtain ⟨e', he', hs'⟩ := hs.apply (c := .cancelOrder a i) trivial (Fits.of_total hP _) (fun h => by cases h)
    obtain ⟨upd, hevs, hupd⟩ := r.apply_updates P (.cancelOrder a i)
    have hcancel : r.dispatch P (.cancelOrder a i) = (r.remove n.side n.order, [.cancelled a i]) := by
      show r.cancel a i = _
      unfold Ref.cancel
      rw [hf]
    have hstate : (r.apply P (.cancelOrder a i)).1 = r.remove n.side n.order := congrArg Prod.fst hcancel
    rw [hcancel] at hevs
    rw [hevs] at he'
    rw [hstate] at hs'
    exact ⟨e', upd, he', hupd, hs'⟩

/-- **Nor does any sequence of commands.** -/
theorem Alike.runFrom (h : Alike P e e') (hP : P.Total) {more : List Command} (hmore : ∀ c ∈ more, c.Checked P) :
    (e.runFrom P more).map Prod.snd = (e'.runFrom P more).map Prod.snd := by
  have hagree : Agree (Alike P) (List.map id) (e.runFrom P more) (e'.runFrom P (more.map id)) :=
    run_agree (fun _ _ _ h hc => h.apply hP hc) h hmore
  rw [List.map_id] at hagree
  generalize e.runFrom P more = x at hagree
  generalize e'.runFrom P more = x' at hagree
  cases hagree with
  | error e => rfl
  | ok rel => simp [Except.map]

end Engine

/-- **IOC is GTC and a cancel of the remainder.** From every state an engine reaches, for every limit order whose key
does not rest: as IOC and as GTC it emits the same fills, prints and self-trade cancels in the same order, then its
acceptance and at most a top-of-book update; cancelling the remainder, if it rests, emits its cancel; and from
the two ends every further sequence of commands emits the same events, or panics in the same way. -/
theorem ioc_is_gtc_then_cancel {P : Profile} (hP : P.Total) {cmds : List Command} (hcmds : ∀ c ∈ cmds, c.Checked P)
    {e : Engine} {evss : List (List Event)} (hrun : Engine.new.runFrom P cmds = .ok (e, evss)) {a i : ℕ} {s : Side}
    {p q ts : ℕ} (hc : (Command.newOrder a i s p q .limit .gtc ts).Checked P)
    (hnew : e.book.orderIndex.lookup (a, i) = none) :
    ∃ e₁ e₂ e₃ matched left upd₁ upd₂ upd₃,
      e.apply P (.newOrder a i s p q .limit .ioc ts) = .ok (e₁, matched ++ .accepted a i 0 :: upd₁) ∧
      e.apply P (.newOrder a i s p q .limit .gtc ts) = .ok (e₂, matched ++ .accepted a i left :: upd₂) ∧
      e₂.cancelIfResting P a i = .ok (e₃, if 0 < left then .cancelled a i :: upd₃ else []) ∧
      (∀ ev ∈ matched, ev.isMatch = true) ∧ (∀ ev ∈ upd₁ ++ upd₂ ++ upd₃, ev.isBookUpdate = true) ∧
      ∀ more, (∀ c ∈ more, c.Checked P) → (e₁.runFrom P more).map Prod.snd = (e₃.runFrom P more).map Prod.snd := by
  obtain ⟨r, hs⟩ := sim_of_checked_run hP hcmds hrun
  have hk : r.find (a, i) = none := by
    rcases hs.lookup (a, i) with ⟨-, hk⟩ | ⟨x, n, hx, -⟩
    · exact hk
    · rw [hnew] at hx
      cases hx
  obtain ⟨e₁, he₁, hs₁⟩ := hs.apply (c := .newOrder a i s p q .limit .ioc ts) hc (Fits.of_total hP _)
    (fun h => by cases h)
  obtain ⟨e₂, he₂, hs₂⟩ := hs.apply hc (Fits.of_total hP _) (fun h => by cases h)
  obtain ⟨upd₁, hevs₁, hupd₁⟩ := r.apply_updates P (.newOrder a i s p q .limit .ioc ts)
  obtain ⟨upd₂, hevs₂, hupd₂⟩ := r.apply_updates P (.newOrder a i s p q .limit .gtc ts)
  have hioc : r.dispatch P (.newOrder a i s p q .limit .ioc ts) = _ := Ref.submitIoc_fresh hk
  have hgtc : r.dispatch P (.newOrder a i s p q .limit .gtc ts) = _ := Ref.submitGtc_fresh hk
  have hstate₁ : (r.apply P (.newOrder a i s p q .limit .ioc ts)).1 = (r.sweep a i s p q).1 := congrArg Prod.fst hioc
  have hstate₂ : (r.apply P (.newOrder a i s p q .limit .gtc ts)).1 =
      (r.sweep a i s p q).1.restRemainder a i s p (r.sweep a i s p q).2.1 := congrArg Prod.fst hgtc
  rw [hioc, List.append_assoc, List.singleton_append] at hevs₁
  rw [hgtc, List.append_assoc, List.singleton_append] at hevs₂
  rw [hevs₁] at he₁
  rw [hevs₂] at he₂
  rw [hstate₁] at hs₁
  rw [hstate₂] at hs₂
  -- taking the remainder out again leaves what the sweep left
  have hwf : (r.sweep a i s p q).1.WF := hs.wf.sweep_wf
  have hfresh : (r.sweep a i s p q).1.find (a, i) = none := hs.wf.sweep_find hk
  obtain ⟨e₃, upd₃, he₃, hupd₃, hs₃⟩ := Engine.cancelIfResting_ok hs₂ hP a i
  rw [hwf.removeKey_restRemainder hfresh] at hs₃
  simp only [hwf.isSome_find_restRemainder hfresh] at he₃
  refine ⟨e₁, e₂, e₃, _, _, upd₁, upd₂, upd₃, he₁, he₂, he₃, hs.wf.sweep_matches a i s p q, ?_, fun more hmore => ?_⟩
  · intro ev hev
    rcases List.mem_append.1 hev with hev | hev
    · rcases List.mem_append.1 hev with hev | hev
      · exact hupd₁ ev hev
      · exact hupd₂ ev hev
    · exact hupd₃ ev hev
  · exact Engine.Alike.runFrom ⟨_, hs₁, hs₃⟩ hP hmore

/-- Account 2 takes five lots of account 1, loses an own order on the way, and three lots are left over. -/
theorem ioc_is_gtc_then_cancel_remainder :
    ∃ e evss e₁ e₂ e₃ matched left upd₁ upd₂ evs₃, Engine.new.runFrom .release
        [.newOrder 1 1 .sell 100 5 .limit .gtc 0, .newOrder 2 1 .sell 101 4 .limit .gtc 0,
         .newOrder 2 2 .buy 90 4 .limit .gtc 0] = .ok (e, evss) ∧
      e.apply .release (.newOrder 2 3 .buy 101 8 .limit .ioc 0) = .ok (e₁, matched ++ .accepted 2 3 0 :: upd₁) ∧
      e.apply .release (.newOrder 2 3 .buy 101 8 .limit .gtc 0) = .ok (e₂, matched ++ .accepted 2 3 left :: upd₂) ∧
      e₂.cancelIfResting .release 2 3 = .ok (e₃, evs₃) ∧
      (e₁.runFrom .release [.newOrder 2 3 .sell 90 9 .limit .gtc 0, .snapshot, .massCancel 2]).map Prod.snd =
        (e₃.runFrom .release [.newOrder 2 3 .sell 90 9 .limit .gtc 0, .snapshot, .massCancel 2]).map Prod.snd := by
  obtain ⟨⟨e, evss⟩, hrun, hnew⟩ := exists_ok_of_decide (x := Engine.new.runFrom .release
      [.newOrder 1 1 .sell 100 5 .limit .gtc 0, .newOrder 2 1 .sell 101 4 .limit .gtc 0,
       .newOrder 2 2 .buy 90 4 .limit .gtc 0])
    (p := fun v => v.1.book.orderIndex.lookup (2, 3) = none) (by decide +kernel)
  have hdec : ∀ c ∈ [Command.newOrder 1 1 .sell 100 5 .limit .gtc 0, .newOrder 2 1 .sell 101 4 .limit .gtc 0,
      .newOrder 2 2 .buy 90 4 .limit .gtc 0], c.Decodable := by decide
  have hmore : ∀ c ∈ [Command.newOrder 2 3 .sell 90 9 .limit .gtc 0, .snapshot, .massCancel 2], c.Decodable := by decide
  have hc : (Command.newOrder 2 3 .buy 101 8 .limit .gtc 0).Checked .release := ⟨by decide, fun h => by cases h⟩
  obtain ⟨e₁, e₂, e₃, matched, left, upd₁, upd₂, upd₃, h₁, h₂, h₃, -, -, hfuture⟩ :=
    ioc_is_gtc_then_cancel Profile.release_total (fun c hc => (hdec c hc).checked) hrun hc hnew
  exact ⟨e, evss, e₁, e₂, e₃, matched, left, upd₁, upd₂, _, hrun, h₁, h₂, h₃,
    hfuture _ (fun c hc => (hmore c hc).checked)⟩

end MatchingEngine
