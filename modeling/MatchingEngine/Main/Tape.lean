import MatchingEngine.Risk.Limits
import MatchingEngine.Ref.Total

/-!
# The market-data tape is faithful

A subscriber keeps the last top-of-book update and the last trade price. What it keeps is
what the book holds: the touch is published from cached level totals whenever it moves, and
a trade price whenever it is remembered.

* `Tape.take`: what a subscriber does with an event.
* `Ref.Carries`: the events of a command carry the tape along, but for the touch.
* `tape_faithful`: whole runs through the gate.
-/

namespace MatchingEngine

/-- What a subscriber keeps. -/
structure Tape where
  bestBid : TouchSide
  bestAsk : TouchSide
  lastTrade : Option ℕ
  deriving DecidableEq, Repr

namespace Tape

def new : Tape := ⟨none, none, none⟩

def take (t : Tape) : Event → Tape
  | .bookUpdate bestBid bestAsk => { t with bestBid, bestAsk }
  | .trade price _ _ => { t with lastTrade := some price }
  | _ => t

/-- The tape after the events of a run. -/
def ofRun (evss : List (List (ℕ × Event))) : Tape := evss.foldl (fun t evs => (evs.map Prod.snd).foldl take t) new

end Tape

/-- A top-of-book update. -/
def Event.updates : Event → Bool
  | .bookUpdate _ _ => true
  | _ => false

namespace Ref

variable {r r' : Ref} {c : Command} {evs : List Event} {a i : ℕ} {s : Side} {limit q : ℕ}

/-- What a subscriber should hold. -/
def tape (P : Profile) (r : Ref) : Tape := ⟨(r.topOfBook P).1, (r.topOfBook P).2, r.lastTrade⟩

/-- Events that carry the tape of a state along to the next, but for its touch. -/
structure Carries (r : Ref) (evs : List Event) (r' : Ref) : Prop where
  quiet : ∀ ev ∈ evs, ev.updates = false
  trade : ∀ t : Tape, t.lastTrade = r.lastTrade → evs.foldl Tape.take t = { t with lastTrade := r'.lastTrade }

/-- Events that print nothing. -/
theorem Carries.of_silent (hevs : ∀ ev ∈ evs, ev.updates = false ∧ ∀ t : Tape, t.take ev = t)
    (ht : r'.lastTrade = r.lastTrade) : r.Carries evs r' := by
  refine ⟨fun ev hev => (hevs ev hev).1, fun t he => ?_⟩
  have hfold : evs.foldl Tape.take t = t := by
    induction evs with
    | nil => rfl
    | cons ev evs ih =>
      rw [List.foldl_cons, (hevs ev (by simp)).2]
      exact ih (fun ev' hev' => hevs ev' (List.mem_cons_of_mem _ hev'))
  rw [hfold, ht, ← he]

theorem Carries.append {r'' : Ref} {evs' : List Event} (h : r.Carries evs r') (h' : r'.Carries evs' r'') :
    r.Carries (evs ++ evs') r'' := by
  refine ⟨?_, fun t he => ?_⟩
  · intro ev hev
    rcases List.mem_append.1 hev with hev | hev
    · exact h.quiet ev hev
    · exact h'.quiet ev hev
  · rw [List.foldl_append, h.trade t he, h'.trade _ rfl]

theorem Carries.congr {r'' : Ref} (h : r.Carries evs r') (ht : r''.lastTrade = r'.lastTrade) : r.Carries evs r'' :=
  ⟨h.quiet, fun t he => by rw [ht]; exact h.trade t he⟩

/-- One silent event. -/
theorem Carries.single {ev : Event} (hu : ev.updates = false) (hev : ∀ t : Tape, t.take ev = t)
    (ht : r'.lastTrade = r.lastTrade) : r.Carries [ev] r' :=
  Carries.of_silent (by
    intro ev' hm
    obtain rfl := List.mem_singleton.1 hm
    exact ⟨hu, hev⟩) ht

/-- One match prints its price. -/
theorem Carries.fillEvents {o : Order} {x v : ℕ} (ht : r'.lastTrade = some o.price) :
    r.Carries (fillEvents a i s o x v) r' := by
  refine ⟨by simp [Ref.fillEvents, Event.updates], fun t _ => ?_⟩
  rw [ht]
  rfl

/-- **A sweep prints every trade.** -/
theorem WF.sweep_carries (h : r.WF) : r.Carries (r.sweep a i s limit q).2.2 (r.sweep a i s limit q).1 := by
  refine h.sweep_induct (motive := fun r _ res => r.Carries res.2.2 res.1) a i s limit ?_ ?_ ?_ ?_ q
  · intro r q _ _
    exact Carries.of_silent (by simp) rfl
  · intro r q o l r' q' evs _ _ _ _ _ ih
    have hcancel : r.Carries [.cancelled o.account o.id] (r.remove s.opposite o) :=
      Carries.single rfl (fun _ => rfl) (remove_lastTrade _ _ _)
    exact hcancel.append ih
  · intro r q o l r' q' evs _ _ _ _ _ _ ih
    exact (Carries.fillEvents rfl).append ih
  · intro r q o l _ _ _ _ _ _
    exact Carries.fillEvents rfl

theorem Carries.cancelled {α : Type*} {l : List α} {f : α → Event} (hf : ∀ x, ∃ a i, f x = .cancelled a i)
    (ht : r'.lastTrade = r.lastTrade) : r.Carries (l.map f) r' := by
  refine Carries.of_silent (fun ev hev => ?_) ht
  obtain ⟨x, -, rfl⟩ := List.mem_map.1 hev
  obtain ⟨a, i, hx⟩ := hf x
  rw [hx]
  exact ⟨rfl, fun _ => rfl⟩

/-- **The events of a command carry the tape along**, but for the touch. -/
theorem WF.dispatch_carries (h : r.WF) (P : Profile) (c : Command) :
    r.Carries (r.dispatch P c).2 (r.dispatch P c).1 := by
  by_cases hsnap : c = .snapshot
  · subst hsnap
    refine Carries.of_silent (fun ev hev => ?_) rfl
    simp only [dispatch, snapshot, snapshotLevels, List.mem_append, List.mem_map, List.mem_singleton] at hev
    rcases hev with ((⟨p, -, rfl⟩ | ⟨p, -, rfl⟩) | ⟨a, -, rfl⟩) | rfl
    · exact ⟨rfl, fun _ => rfl⟩
    · exact ⟨rfl, fun _ => rfl⟩
    · exact ⟨rfl, fun _ => rfl⟩
    · exact ⟨rfl, fun _ => rfl⟩
  by_cases hkill : ∃ engaged, c = .killSwitch engaged
  · obtain ⟨engaged, rfl⟩ := hkill
    exact Carries.of_silent (by simp [dispatch]) rfl
  have hd := r.did P c
  generalize r.dispatch P c = res at hd ⊢
  obtain ⟨r', evs⟩ := res
  simp only at hd ⊢
  cases hd with
  | idle _ told =>
    obtain ⟨a, i, reason, rfl⟩ := (told.resolve_right (fun hh => hh.elim hsnap hkill))
    exact Carries.single rfl (fun _ => rfl) rfl
  | @entered a i s p q k t ts limit rests fresh own bound drops =>
    refine h.sweep_carries.append (Carries.single rfl (fun _ => rfl) ?_)
    split
    · exact restRemainder_lastTrade _ _ _ _ _ _
    · rfl
  | @posted a i s p q ts fresh clear =>
    have hown : r.Carries _ (r.clearOwn a s p) :=
      Carries.cancelled (l := r.ownPrefix a s p) (f := fun o => .cancelled o.account o.id) (fun o => ⟨_, _, rfl⟩)
        h.clear_lastTrade
    exact hown.append (Carries.single rfl (fun _ => rfl) (rest_lastTrade _ _ _))
  | @refused a i s p q ts fresh =>
    have hown : r.Carries _ (r.clearOwn a s p) :=
      Carries.cancelled (l := r.ownPrefix a s p) (f := fun o => .cancelled o.account o.id) (fun o => ⟨_, _, rfl⟩)
        h.clear_lastTrade
    exact hown.append (Carries.single rfl (fun _ => rfl) rfl)
  | amended found pos le => exact Carries.single rfl (fun _ => rfl) (setQty_lastTrade _ _ _ _)
  | @requeued a i p q s o found pos changes =>
    have h₁ := h.remove (find_some found).1
    have hout : r.Carries [.replaced a i q false] (r.remove s o) :=
      Carries.single rfl (fun _ => rfl) (remove_lastTrade _ _ _)
    have hswept : (r.remove s o).Carries ((r.remove s o).sweep a i s p q).2.2 ((r.remove s o).sweep a i s p q).1 :=
      h₁.sweep_carries
    exact (hout.append hswept).congr (restRemainder_lastTrade _ _ _ _ _ _)
  | cancelled found => exact Carries.single rfl (fun _ => rfl) (remove_lastTrade _ _ _)
  | emptied => exact Carries.cancelled (fun id => ⟨_, _, rfl⟩) (h.foldl_removeKey _ _).2.1

/-- **A subscriber keeps up with a command.** -/
theorem WF.apply_tape (h : r.WF) (P : Profile) (c : Command) :
    (r.apply P c).2.foldl Tape.take (r.tape P) = (r.apply P c).1.tape P := by
  have hc := h.dispatch_carries P c
  have hfold := hc.trade (r.tape P) rfl
  unfold apply
  simp only
  split
  · rw [List.foldl_append, hfold]
    rfl
  · -- the touch has not moved
    rename_i hsame
    rw [hfold]
    unfold tape
    rw [not_not.1 hsame]

/-- **The update comes once, last, and only when the touch has moved.** -/
theorem WF.apply_updates (h : r.WF) (P : Profile) (c : Command) :
    (r.topOfBook P = (r.apply P c).1.topOfBook P ∧ ∀ ev ∈ (r.apply P c).2, ev.updates = false) ∨
      ∃ evs, (r.apply P c).2 = evs ++ [.bookUpdate ((r.apply P c).1.topOfBook P).1 ((r.apply P c).1.topOfBook P).2] ∧
        (∀ ev ∈ evs, ev.updates = false) ∧ r.topOfBook P ≠ (r.apply P c).1.topOfBook P := by
  have hc := h.dispatch_carries P c
  unfold apply
  simp only
  split
  · rename_i hmoved
    exact Or.inr ⟨_, rfl, hc.quiet, hmoved⟩
  · rename_i hsame
    exact Or.inl ⟨not_not.1 hsame, hc.quiet⟩

end Ref

/-- The best price among the resting orders of a side, with the sum of their quantities at that price; nothing when
no order rests there. -/
def Book.IsTouch (b : Book) (side : Side) : TouchSide → Prop
  | none => ∀ n ∈ b.nodes, n.side ≠ side
  | some (price, qty) => (∃ n ∈ b.nodes, n.side = side ∧ n.price = price) ∧
      (∀ n ∈ b.nodes, n.side = side → side.better price n.price) ∧
      qty = ((b.nodes.filter (fun n => n.side = side ∧ n.price = price)).map Node.qty).sum

section

variable {P : Profile} {N : ℕ∞} {b : Book} {r : Ref} {debug : Bool}

/-- The touch of the state is the touch of the resting orders, where sums are exact. -/
theorem Sim.isTouch (h : Sim (.exact debug) N b r) (side : Side) :
    b.IsTouch side (Ref.touch (.exact debug) (r.side side)) := by
  unfold Ref.touch
  have hmem : ∀ n ∈ b.nodes, n.side = side → n.order ∈ r.side side := by
    rintro n hn rfl
    obtain ⟨x, hx⟩ := Book.mem_nodes.1 hn
    exact h.node hx
  cases hc : r.side side with
  | nil =>
    intro n hn hside
    have := hmem n hn hside
    rw [hc] at this
    simp at this
  | cons o l =>
    obtain ⟨x, n, hn, hns, hno⟩ := h.order_node (Ref.mem_of_cons hc)
    have hsort := h.wf.sorted side
    rw [hc, List.pairwise_cons] at hsort
    refine ⟨⟨n, Book.mem_nodes.2 ⟨x, hn⟩, hns, congrArg Order.price hno⟩, ?_, ?_⟩
    · intro m hm hms
      have hmo := hmem m hm hms
      rw [hc] at hmo
      rcases List.mem_cons.1 hmo with he | hmo
      · exact (congrArg Order.price he) ▸ side.better_refl _
      · exact hsort.1 _ hmo
    · have hqty : Ref.stored Word.exact (qtyAt (o :: l) o.price) = qtyAt (o :: l) o.price := by
        unfold Ref.stored
        rw [Word.exact_val]
        rfl
      exact hqty.trans (by rw [← hc, ← h.restingQty]; rfl)

theorem Sim.topOfBook_isTouch (h : Sim (.exact debug) N b r) :
    b.IsTouch .buy (r.topOfBook (.exact debug)).1 ∧ b.IsTouch .sell (r.topOfBook (.exact debug)).2 :=
  ⟨h.isTouch .buy, h.isTouch .sell⟩

end

/-- **The market-data tape is faithful.** After every run through the gate, with sums read as exact naturals, a
subscriber's last update holds the best price of each side and the sum of the quantities resting there, and its
last trade price is the book's. A command's events hold no update, or one at the end that names a touch other than
the one before the command. -/
theorem tape_faithful (debug : Bool) (config : RiskConfig) {cmds : List Command} (hcmds : ∀ c ∈ cmds, c.Decodable)
    {s : System} {evss : List (List (ℕ × Event))}
    (hrun : (System.new config).runFrom (.exact debug) cmds = .ok (s, evss)) :
    s.engine.book.IsTouch .buy (Tape.ofRun evss).bestBid ∧ s.engine.book.IsTouch .sell (Tape.ofRun evss).bestAsk ∧
    (Tape.ofRun evss).lastTrade = s.engine.book.lastTrade ∧
    ∀ c s' evs, c.Decodable → s.processCommand (.exact debug) c = .ok (s', evs) →
      (∀ x ∈ evs, x.2.updates = false) ∨
      ∃ pre seq bid ask bid' ask', evs = pre ++ [(seq, .bookUpdate bid' ask')] ∧ (∀ x ∈ pre, x.2.updates = false) ∧
        s.engine.book.IsTouch .buy bid ∧ s.engine.book.IsTouch .sell ask ∧
        s'.engine.book.IsTouch .buy bid' ∧ s'.engine.book.IsTouch .sell ask' ∧ (bid, ask) ≠ (bid', ask') := by
  have hP := Profile.exact_total debug
  have hinv : ∃ r, Sim (.exact debug) ⊤ s.engine.book r ∧ Tape.ofRun evss = r.tape (.exact debug) := by
    refine run_fold (C := fun _ c => c.Decodable)
      (fun (t : Tape) (s : System) => ∃ r, Sim (.exact debug) ⊤ s.engine.book r ∧ t = r.tape (.exact debug)) ?_
      ⟨_, Sim.new _ ⊤, rfl⟩ (along_of_forall hcmds) hrun
    rintro t s c s' evs ⟨r, hs, rfl⟩ hc hstep
    obtain ⟨-, -, ⟨he, a, i, reason, rfl⟩ | ⟨-, evs', ha, rfl⟩⟩ := System.processCommand_cases hstep
    · exact ⟨r, he ▸ hs, rfl⟩
    · obtain ⟨rfl, hs'⟩ := hs.applied hP hc ha
      refine ⟨_, hs', ?_⟩
      rw [System.map_snd_numbered]
      exact hs.wf.apply_tape _ c
  obtain ⟨r, hs, htape⟩ := hinv
  have htouch := hs.topOfBook_isTouch
  rw [htape]
  refine ⟨htouch.1, htouch.2, hs.lastTrade.symm, ?_⟩
  intro c s' evs hc hstep
  obtain ⟨-, -, ⟨he, a, i, reason, rfl⟩ | ⟨-, evs', ha, rfl⟩⟩ := System.processCommand_cases hstep
  · exact Or.inl (by simp [Event.updates])
  · obtain ⟨rfl, hs'⟩ := hs.applied hP hc ha
    have htouch' := hs'.topOfBook_isTouch
    rcases hs.wf.apply_updates (.exact debug) c with ⟨-, hquiet⟩ | ⟨pre, hevs, hquiet, hmoved⟩
    · left
      intro x hx
      obtain ⟨ev, hev, rfl⟩ := List.mem_map.1 hx
      exact hquiet ev hev
    · right
      refine ⟨pre.map (fun ev => (s.engineSeq + 1, ev)), s.engineSeq + 1, _, _, _, _, ?_, ?_, htouch.1, htouch.2,
        htouch'.1, htouch'.2, hmoved⟩
      · rw [hevs, List.map_append]
        rfl
      · intro x hx
        obtain ⟨ev, hev, rfl⟩ := List.mem_map.1 hx
        exact hquiet ev hev

/-- A sweep through a level and into the next: the tape follows. -/
theorem tape_faithful_sweep :
    ∃ s evss, (System.new .default).runFrom (.exact true)
        [.newOrder 1 1 .sell 100 5 .limit .gtc 0, .newOrder 1 2 .sell 101 4 .limit .gtc 0,
         .newOrder 1 3 .sell 101 6 .limit .gtc 0, .newOrder 2 1 .buy 101 7 .limit .gtc 0] = .ok (s, evss) ∧
      Tape.ofRun evss = ⟨none, some (101, 8), some 101⟩ ∧
      s.engine.book.IsTouch .buy none ∧ s.engine.book.IsTouch .sell (some (101, 8)) ∧
      s.engine.book.lastTrade = some 101 := by
  obtain ⟨⟨s, evss⟩, hrun, htape⟩ := exists_ok_of_decide (x := (System.new .default).runFrom (.exact true)
      [.newOrder 1 1 .sell 100 5 .limit .gtc 0, .newOrder 1 2 .sell 101 4 .limit .gtc 0,
       .newOrder 1 3 .sell 101 6 .limit .gtc 0, .newOrder 2 1 .buy 101 7 .limit .gtc 0])
    (p := fun v => Tape.ofRun v.2 = ⟨none, some (101, 8), some 101⟩) (by decide +kernel)
  obtain ⟨hbid, hask, htrade, -⟩ := tape_faithful true .default (by decide) hrun
  rw [htape] at hbid hask htrade
  exact ⟨s, evss, hrun, htape, hbid, hask, htrade.symm⟩

end MatchingEngine
