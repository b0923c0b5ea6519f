import MatchingEngine.Main.Routing
import MatchingEngine.Main.Reports

/-!
# The routing table and the resting orders

The table is to hold an entry for each resting order and no other. It does as long as no
order is filled in part and then discarded: the partial fill of an IOC or market order puts
it in the table, and the `Accepted` that reports nothing resting does not take it out again.

* `Reports.SameKeys`: the table and the map a client keeps from the reports have the same
  keys; every event keeps them so, but that one.
* `table_tracks_resting`: the runs in which the table is right.
-/

namespace MatchingEngine

open Matching

/-- The table has an entry where the map has one. -/
def Reports.SameKeys (table : RestingConn) (m : Reports) : Prop := ∀ k, table.lookup k = none ↔ m.lookup k = none

section Events

variable {connId : ConnId} {selfId : Option Key} {table : RestingConn} {m : Reports}

open Reports (SameKeys)

/-- Both set the entry of an order, or both remove it. -/
theorem sameKeys_set (h : SameKeys table m) (k : Key) (c : ConnId) (q : ℕ) :
    SameKeys (if q > 0 then table.insert k c else table.erase k) (m.set k q) := by
  intro k'
  unfold Reports.set
  by_cases hq : q = 0
  · rw [if_neg (by omega), if_pos hq, lookup_erase_if, lookup_erase_if]
    by_cases hk : k' = k
    · rw [if_pos hk, if_pos hk]
    · rw [if_neg hk, if_neg hk]
      exact h k'
  · rw [if_pos (by omega), if_neg hq, lookup_insert_if, lookup_insert_if]
    by_cases hk : k' = k
    · rw [if_pos hk, if_pos hk]
      simp
    · rw [if_neg hk, if_neg hk]
      exact h k'

/-- **One event**: the keys stay the same unless an order that was discarded has an entry. -/
theorem sameKeys_after (h : SameKeys table m) {ev : Event} (hev : ∀ a i, ev = .accepted a i 0 → m.lookup (a, i) = none) :
    SameKeys (after connId selfId table ev) (m.take ev) := by
  cases ev with
  | accepted a i q =>
    -- an acceptance that rests nothing clears the report but leaves the table alone
    by_cases hq : q = 0
    · subst hq
      intro k
      show table.lookup k = none ↔ (m.erase (a, i)).lookup k = none
      rw [lookup_erase_if]
      by_cases hk : k = (a, i)
      · rw [if_pos hk, hk, h]
        exact iff_of_true (hev a i rfl) rfl
      · rw [if_neg hk]
        exact h k
    · have hset := sameKeys_set h (a, i) (route connId selfId table (a, i)) q
      rw [if_pos (by omega)] at hset
      show SameKeys (if q > 0 then _ else _) _
      rw [if_pos (by omega)]
      exact hset
  | filled a i s p n q st => exact sameKeys_set h (a, i) _ q
  | cancelled a i => exact sameKeys_set h (a, i) 0 0
  | replaced a i q kept =>
    have hset := sameKeys_set h (a, i) (route connId selfId table (a, i)) 1
    intro k
    show (table.insert (a, i) _).lookup k = none ↔ (m.insert (a, i) q).lookup k = none
    rw [(show (table.insert (a, i) _).lookup k = none ↔ _ from hset k), lookup_insert_if]
    show (m.insert (a, i) 1).lookup k = none ↔ _
    rw [lookup_insert_if]
    by_cases hk : k = (a, i)
    · rw [if_pos hk, if_pos hk]
      simp
    · rw [if_neg hk, if_neg hk]
  | _ => exact h

theorem sameKeys_foldl (h : SameKeys table m) {evs : List Event} (hevs : ∀ ev ∈ evs, ∀ a i, ev ≠ .accepted a i 0) :
    SameKeys (evs.foldl (after connId selfId) table) (evs.foldl Reports.take m) := by
  induction evs generalizing table m with
  | nil => exact h
  | cons ev evs ih =>
    obtain ⟨hev, hevs⟩ := List.forall_mem_cons.1 hevs
    exact ih (sameKeys_after h (fun a i he => absurd he (hev a i))) hevs

/-- **After an order that was discarded**, the keys are the same if it has no entry. -/
theorem sameKeys_accepted_zero (h : SameKeys table m) (a i : ℕ) :
    SameKeys (after connId selfId table (.accepted a i 0)) (m.take (.accepted a i 0)) ↔ m.lookup (a, i) = none := by
  constructor
  · intro hsame
    have hnone : (m.take (.accepted a i 0)).lookup (a, i) = none := by
      show (m.erase (a, i)).lookup (a, i) = none
      rw [lookup_erase_if, if_pos rfl]
    exact (h (a, i)).1 ((hsame (a, i)).2 hnone)
  · intro hnone
    refine sameKeys_after h fun a' i' he => ?_
    simp only [Event.accepted.injEq, and_true] at he
    rw [← he.1, ← he.2]
    exact hnone

end Events

namespace Ref

variable {r : Ref} {s : Side} {a i : ℕ}

/-- The aggressor in the map: its quantity left, if it was there before or has traded. -/
theorem WF.reports_sweep_self (h : r.WF) (limit q : ℕ) (hf : r.find (a, i) = none) {m : Reports}
    (h0 : m.lookup (a, i) = none) :
    ((r.sweep a i s limit q).2.2.foldl Reports.take m).lookup (a, i) =
      if (r.sweep a i s limit q).2.1 < q then present (r.sweep a i s limit q).2.1 else none := by
  refine ((h.sweep_induct (motive := fun r q res => r.find (a, i) = none → res.2.1 ≤ q ∧ ∀ m : Reports,
    (m.lookup (a, i) = present q → (res.2.2.foldl Reports.take m).lookup (a, i) = present res.2.1) ∧
    (m.lookup (a, i) = none → (res.2.2.foldl Reports.take m).lookup (a, i) =
      if res.2.1 < q then present res.2.1 else none)) a i s limit ?_ ?_ ?_ ?_ q hf).2 m).2 h0
  · intro r q _ _ _
    refine ⟨le_refl q, fun m => ⟨fun h0 => h0, fun h0 => ?_⟩⟩
    rw [if_neg (Nat.lt_irrefl q)]
    exact h0
  · intro r q o l r' q' evs h hc _ _ _ ih hf
    have ho := mem_of_cons hc
    have hne : (a, i) ≠ o.key := (find_eq_none.1 hf o (r.side_sub_orders _ o ho)).symm
    obtain ⟨hle, hm⟩ := ih (find_eq_none.2 fun x hx => find_eq_none.1 hf x ((h.mem_remove ho).1 hx).1)
    have herase : ∀ m : Reports, (m.take (.cancelled o.account o.id)).lookup (a, i) = m.lookup (a, i) := by
      intro m
      show (m.erase o.key).lookup (a, i) = _
      rw [lookup_erase_if, if_neg hne]
    refine ⟨hle, fun m => ⟨fun h0 => (hm _).1 ?_, fun h0 => (hm _).2 ?_⟩⟩
    · rw [herase, h0]
    · rw [herase, h0]
  · intro r q o l r' q' evs h hc _ hq _ hle ih hf
    have ho := mem_of_cons hc
    have hne : (a, i) ≠ o.key := (find_eq_none.1 hf o (r.side_sub_orders _ o ho)).symm
    have hpos := h.pos o (r.side_sub_orders _ o ho)
    obtain ⟨hle', hm⟩ := ih (find_eq_none.2 fun x hx => find_eq_none.1 hf x ((h.mem_remove ho).1 hx).1)
    -- one fill, and the map holds what is left
    have hfill : ∀ m : Reports, ((fillEvents a i s o o.qty (q - o.qty) ++ evs).foldl Reports.take m).lookup (a, i) =
        present q' := by
      intro m
      rw [List.foldl_append]
      refine (hm _).1 ?_
      show ((m.set (a, i) (q - o.qty)).set o.key (o.qty - o.qty)).lookup (a, i) = _
      rw [Reports.lookup_set, if_neg hne, Reports.lookup_set, if_pos rfl]
    simp only at hle' ⊢
    refine ⟨by omega, fun m => ⟨fun _ => hfill m, fun _ => ?_⟩⟩
    rw [if_pos (by omega)]
    exact hfill m
  · intro r q o l h hc _ hq _ hlt hf
    have ho := mem_of_cons hc
    have hne : (a, i) ≠ o.key := (find_eq_none.1 hf o (r.side_sub_orders _ o ho)).symm
    have hfill : ∀ m : Reports, ((fillEvents a i s o q 0).foldl Reports.take m).lookup (a, i) = present 0 := by
      intro m
      show ((m.set (a, i) 0).set o.key (o.qty - q)).lookup (a, i) = _
      rw [Reports.lookup_set, if_neg hne, Reports.lookup_set, if_pos rfl]
    refine ⟨Nat.zero_le q, fun m => ⟨fun _ => hfill m, fun _ => ?_⟩⟩
    rw [if_pos hq]
    exact hfill m

variable {connId : ConnId} {table : RestingConn} {m : Reports}

open Reports (SameKeys)

/-- No order is filled in part and then discarded: an IOC or market order that is not a duplicate finds
foreign depth for all of its quantity or for none of it. -/
def WholeOrNone (r : Ref) : Command → Prop
  | .newOrder a i s p q k t _ => (k = .market ∨ t = .ioc) → r.find (a, i) = none →
      q ≤ r.foreignDepth a s (limitOf k s p) ∨ r.foreignDepth a s (limitOf k s p) = 0
  | _ => True

/-- The events of a new order that was matched: what is left at `Accepted` decides. -/
theorem WF.sameKeys_entered (h : r.WF) {limit q x : ℕ} (hf : r.find (a, i) = none) (hq : 0 < q)
    (hm : ∀ k, m.lookup k = r.qtyOf k) (hs : SameKeys table m) :
    SameKeys (((r.sweep a i s limit q).2.2 ++ [Event.accepted a i x]).foldl (Matching.after connId (some (a, i))) table)
        (((r.sweep a i s limit q).2.2 ++ [Event.accepted a i x]).foldl Reports.take m) ↔
      (x = 0 → q ≤ r.foreignDepth a s limit ∨ r.foreignDepth a s limit = 0) := by
  have hsilent : ∀ ev ∈ (r.sweep a i s limit q).2.2, ∀ a' i', ev ≠ .accepted a' i' 0 := by
    rintro ev hev a' i' rfl
    have hno := h.sweep_noAnswer a i s limit q _ hev
    cases hno
  have hsweep := @sameKeys_foldl connId (some (a, i)) _ _ hs _ hsilent
  -- after the sweep the reports hold the taker exactly if it was filled in part
  have hself := h.reports_sweep_self (s := s) limit q hf ((hm (a, i)).trans (qtyOf_none.2 hf))
  have hrem : (r.sweep a i s limit q).2.1 = q - r.foreignDepth a s limit := h.sweep_remaining
  rw [List.foldl_append, List.foldl_append]
  by_cases hx : x = 0
  · subst hx
    rw [List.foldl_cons, List.foldl_nil, List.foldl_cons, List.foldl_nil, sameKeys_accepted_zero hsweep, hself, hrem]
    unfold present
    constructor
    · intro hnone _
      by_contra hcon
      rw [if_pos (by omega), if_neg (by omega)] at hnone
      cases hnone
    · intro hcon
      rcases hcon rfl with hle | hz
      · rw [if_pos (by omega), if_pos (by omega)]
      · rw [if_neg (by omega)]
  · refine iff_of_true ?_ (fun hz => absurd hz hx)
    rw [List.foldl_cons, List.foldl_nil, List.foldl_cons, List.foldl_nil]
    refine sameKeys_after hsweep fun a' i' he => ?_
    rw [Event.accepted.injEq] at he
    exact absurd he.2.2 hx

/-- Only new orders are accepted. -/
theorem Did.noAccepted {c : Command} {r' : Ref} {evs : List Event} (hd : Did r c r' evs) (h : r.WF)
    (hc : ∀ a i s p q k t ts, c ≠ .newOrder a i s p q k t ts) : ∀ ev ∈ evs, ∀ a i, ev ≠ .accepted a i 0 := by
  rintro ev hev a' i' rfl
  cases hd with
  | idle quiet => exact quiet _ hev
  | entered => exact hc _ _ _ _ _ _ _ _ rfl
  | posted => exact hc _ _ _ _ _ _ _ _ rfl
  | refused => exact hc _ _ _ _ _ _ _ _ rfl
  | amended => simp at hev
  | @requeued a i p q s o found =>
    rcases List.mem_cons.1 hev with he | hev
    · cases he
    · have hno := (h.remove (find_some found).1).sweep_noAnswer a i s p q _ hev
      cases hno
  | cancelled => simp at hev
  | emptied => simp [massCancel] at hev

/-- A duplicate is refused, and changes nothing. -/
theorem sameKeys_unlessDuplicate {selfId : Option Key} {res : Ref × List Event} {W : Prop} (hs : SameKeys table m)
    (hdup : r.find (a, i) ≠ none → W)
    (h : r.find (a, i) = none → (SameKeys (res.2.foldl (Matching.after connId selfId) table)
      (res.2.foldl Reports.take m) ↔ W)) :
    SameKeys ((r.unlessDuplicate a i res).2.foldl (Matching.after connId selfId) table)
      ((r.unlessDuplicate a i res).2.foldl Reports.take m) ↔ W := by
  unfold unlessDuplicate
  cases hf : r.find (a, i) with
  | none => exact h hf
  | some e => exact iff_of_true hs (hdup (by rw [hf]; simp))

/-- **The events of a command keep the keys the same, unless it leaves a discarded order behind.** -/
theorem WF.sameKeys_dispatch (h : r.WF) {P : Profile} {c : Command} (hc : c.Checked P)
    (hm : ∀ k, m.lookup k = r.qtyOf k) (hs : SameKeys table m) :
    SameKeys ((r.dispatch P c).2.foldl (Matching.after connId (commandSelfId c)) table)
      ((r.dispatch P c).2.foldl Reports.take m) ↔ r.WholeOrNone c := by
  cases c with
  | newOrder a i s p q k t ts =>
    have hq : 0 < q := Nat.pos_of_ne_zero hc.1
    have hdup : r.find (a, i) ≠ none → r.WholeOrNone (.newOrder a i s p q k t ts) := fun hd _ hf => absurd hf hd
    cases k with
    | market =>
      refine sameKeys_unlessDuplicate hs hdup fun hf => (h.sameKeys_entered hf hq hm hs).trans ?_
      exact ⟨fun hx _ _ => hx rfl, fun hx _ => hx (Or.inl rfl) hf⟩
    | limit =>
      cases t with
      | gtc =>
        refine sameKeys_unlessDuplicate hs hdup fun hf => (h.sameKeys_entered hf hq hm hs).trans ?_
        have hrem : (r.sweep a i s p q).2.1 = q - r.foreignDepth a s p := h.sweep_remaining
        refine iff_of_true (fun (hx : (r.sweep a i s p q).2.1 = 0) => Or.inl ?_) (fun hx => by simp at hx)
        omega
      | ioc =>
        refine sameKeys_unlessDuplicate hs hdup fun hf => (h.sameKeys_entered hf hq hm hs).trans ?_
        exact ⟨fun hx _ _ => hx rfl, fun hx _ => hx (Or.inr rfl) hf⟩
      | fok =>
        refine sameKeys_unlessDuplicate hs hdup fun hf => ?_
        refine (show _ ↔ True from ?_).trans (iff_of_true trivial (fun hx => by simp at hx))
        split
        · next hle => exact (h.sameKeys_entered hf hq hm hs).trans (iff_of_true (fun _ => Or.inl hle) trivial)
        · exact iff_of_true hs trivial
      | postOnly =>
        refine sameKeys_unlessDuplicate hs hdup fun hf => iff_of_true ?_ (fun hx => by simp at hx)
        have hown : ∀ ev ∈ (r.ownPrefix a s p).map (fun o => Event.cancelled o.account o.id), ∀ a' i',
            ev ≠ .accepted a' i' 0 := by
          rw [List.forall_mem_map]
          rintro o _ a' i' he
          cases he
        refine sameKeys_foldl hs ?_
        split
        · exact List.forall_mem_append.2 ⟨hown, by simp⟩
        · refine List.forall_mem_append.2 ⟨hown, ?_⟩
          intro ev hev a' i' he
          rw [List.mem_singleton.1 hev, Event.accepted.injEq] at he
          exact hc.1 he.2.2
  | _ => exact iff_of_true (sameKeys_foldl hs ((r.did P _).noAccepted h (by simp))) trivial

end Ref

/-- The gate lets the command through. -/
def System.passes (P : Profile) (s : System) (cmd : Command) : Bool :=
  match s.risk.preApplyCheck P cmd s.engine.book with
  | .ok (_, none) => true
  | _ => false

/-- An IOC or market order that reaches the book, and is no duplicate, is fillable whole or not at all. -/
def FillsWholeOrNot (P : Profile) (t : Matching) : ConnId × Command → Prop
  | (_, .newOrder a i s p q k tif ts) => (k = .market ∨ tif = .ioc) →
      t.system.passes P (.newOrder a i s p q k tif ts) = true → (a, i) ∉ t.system.engine.book.orderIndex →
      t.system.engine.book.isFillable a s (Ref.limitOf k s p) q = .ok true ∨
      t.system.engine.book.isFillable a s (Ref.limitOf k s p) 1 = .ok false
  | _ => True

instance (P : Profile) (t : Matching) : DecidablePred (FillsWholeOrNot P t)
  | (_, .newOrder a i s p q k tif ts) => inferInstanceAs (Decidable ((k = .market ∨ tif = .ioc) →
      t.system.passes P (.newOrder a i s p q k tif ts) = true → (a, i) ∉ t.system.engine.book.orderIndex →
      t.system.engine.book.isFillable a s (Ref.limitOf k s p) q = .ok true ∨
      t.system.engine.book.isFillable a s (Ref.limitOf k s p) 1 = .ok false))
  | (_, .cancelOrder _ _) => .isTrue trivial
  | (_, .cancelReplace _ _ _ _) => .isTrue trivial
  | (_, .massCancel _) => .isTrue trivial
  | (_, .killSwitch _) => .isTrue trivial
  | (_, .snapshot) => .isTrue trivial

/-- The table has an entry for each resting order and no other. -/
def TableExact (t : Matching) : Prop := ∀ k, k ∈ t.restingConn ↔ k ∈ t.system.engine.book.orderIndex

section Runs

variable {P : Profile} {t t' : Matching} {connId : ConnId} {cmd : Command} {out : Dispatched} {r : Ref} {m : Reports}

theorem Sim.mem_orderIndex {N : ℕ∞} {b : Book} (hs : Sim P N b r) (k : Key) : k ∈ b.orderIndex ↔ r.qtyOf k ≠ none := by
  rw [← Finmap.lookup_isSome]
  rcases hs.lookup k with ⟨hl, hf⟩ | ⟨x, n, hl, -, -, hf⟩
  · rw [hl, Ref.qtyOf_none.2 hf]
    simp
  · rw [hl]
    simp [Ref.qtyOf, hf]

/-- The table is exact if it has the keys of the map. -/
theorem Sim.tableExact_iff (hs : Sim P ⊤ t.system.engine.book r) (hm : ∀ k, m.lookup k = r.qtyOf k) :
    TableExact t ↔ Reports.SameKeys t.restingConn m := by
  refine forall_congr' fun k => ?_
  rw [hs.mem_orderIndex, ← Finmap.lookup_isSome, Option.isSome_iff_ne_none, hm]
  exact not_iff_not

theorem Sim.fillsWholeOrNot_iff (hs : Sim P ⊤ t.system.engine.book r) (hg : t.system.passes P cmd = true) :
    FillsWholeOrNot P t (connId, cmd) ↔ r.WholeOrNone cmd := by
  cases cmd with
  | newOrder a i s p q k tif ts =>
    unfold FillsWholeOrNot Ref.WholeOrNone
    simp only [hs.mem_orderIndex, not_not, Ref.qtyOf_none, hs.isFillable, Except.ok.injEq, decide_eq_true_eq,
      decide_eq_false_iff_not, hg, forall_const]
    refine imp_congr_right fun _ => imp_congr_right fun _ => or_congr_right ?_
    omega
  | _ => exact Iff.rfl

/-- The book stands for a reference state, and a client's map has its quantities. -/
def Mirrored (P : Profile) (t : Matching) : Prop :=
  ∃ (r : Ref) (m : Reports), Sim P ⊤ t.system.engine.book r ∧ ∀ k, m.lookup k = r.qtyOf k

theorem mirrored_new (P : Profile) (config : RiskConfig) (recorder : Option (List UInt8)) :
    Mirrored P (new config recorder) :=
  ⟨Ref.new, ∅, Sim.new P ⊤, fun _ => rfl⟩

/-- **One turn**: an exact table stays exact unless a discarded order is left behind. -/
theorem mirrored_step (hP : P.Total) (h : Mirrored P t) (hc : cmd.Decodable)
    (hstep : t.step P (connId, cmd) = .ok (t', out)) :
    Mirrored P t' ∧ (TableExact t → (TableExact t' ↔ FillsWholeOrNot P t (connId, cmd))) := by
  obtain ⟨r, m, hs, hm⟩ := h
  obtain ⟨evs, hp, htable, -⟩ := step_cases hstep
  rcases System.processCommand_gate hp with ⟨ev, hg, he, rfl⟩ | ⟨hg, evs', ha, rfl⟩
  · -- rejected by the gate: nothing changes, and the condition asks for nothing
    obtain ⟨a, i, reason, rfl, -⟩ := RiskState.preApplyCheck_answers hg
    have hpass : t.system.passes P cmd = false := by
      unfold System.passes
      rw [hg]
    refine ⟨⟨r, m, he ▸ hs, hm⟩, fun ht => iff_of_true ?_ ?_⟩
    · intro k
      rw [htable, he]
      exact ht k
    · cases cmd with
      | newOrder a i s p q k tif ts =>
        intro _ hpass'
        rw [hpass] at hpass'
        cases hpass'
      | _ => trivial
  · have hpass : t.system.passes P cmd = true := by
      unfold System.passes
      rw [hg]
    obtain ⟨rfl, hs'⟩ := hs.applied hP hc ha
    rw [System.map_snd_numbered, Ref.foldl_apply (fun _ _ _ => rfl)] at htable
    have hm' : ∀ k, ((r.dispatch P cmd).2.foldl Reports.take m).lookup k = (r.apply P cmd).1.qtyOf k :=
      (r.did P cmd).reports hs.wf (hc.checked (P := P)) hm
    refine ⟨⟨_, _, hs', hm'⟩, fun ht => ?_⟩
    rw [hs'.tableExact_iff hm', htable, hs.wf.sameKeys_dispatch hc.checked hm ((hs.tableExact_iff hm).1 ht),
      hs.fillsWholeOrNot_iff hpass]

/-- From an exact table: it stays exact as long as the condition is met, and no longer. -/
theorem tableExact_run (hP : P.Total) {inputs : List (ConnId × Command)} (hin : ∀ x ∈ inputs, x.2.Decodable)
    (h : Mirrored P t) (ht : TableExact t) {outs : List Dispatched} (hrun : run (step P) t inputs = .ok (t', outs)) :
    (∀ pre, pre <+: inputs → ∀ t₁ outs₁, run (step P) t pre = .ok (t₁, outs₁) → TableExact t₁) ↔
      Along (step P) (FillsWholeOrNot P) t inputs := by
  -- on the inputs: the table is exact one turn later if and only if the turn meets the condition
  induction inputs generalizing t outs with
  | nil =>
    refine iff_of_true (fun pre hpre t₁ outs₁ h₁ => ?_) trivial
    rw [List.prefix_nil.1 hpre, run_nil, Except.ok.injEq, Prod.mk.injEq] at h₁
    exact h₁.1 ▸ ht
  | cons x inputs ih =>
    obtain ⟨hx, hrest⟩ := List.forall_mem_cons.1 hin
    obtain ⟨t₁, out, outs₁, h1, h2, -⟩ := run_cons_inv hrun
    obtain ⟨hm, hone⟩ := mirrored_step hP h hx h1
    replace ih := fun ht₁ => ih hrest hm ht₁ h2
    constructor
    · intro hall
      have ht₁ : TableExact t₁ := hall [x] ⟨inputs, rfl⟩ t₁ [out] (run_cons_ok h1 rfl)
      refine ⟨(hone ht).1 ht₁, fun s o hs => ?_⟩
      rw [h1, Except.ok.injEq, Prod.mk.injEq] at hs
      obtain ⟨rfl, rfl⟩ := hs
      refine (ih ht₁).1 fun pre hpre t₂ outs₂ h₂ => ?_
      exact hall (x :: pre) ((List.prefix_cons_inj x).2 hpre) t₂ (out :: outs₂) (run_cons_ok h1 h₂)
    · rintro ⟨hcond, hafter⟩ pre hpre t₂ outs₂ h₂
      have ht₁ : TableExact t₁ := (hone ht).2 hcond
      cases pre with
      | nil =>
        rw [run_nil, Except.ok.injEq, Prod.mk.injEq] at h₂
        exact h₂.1 ▸ ht
      | cons y pre =>
        obtain ⟨rfl, htail⟩ := List.cons_prefix_cons.1 hpre
        obtain ⟨t₃, o, os, h3, h4, -⟩ := run_cons_inv h₂
        rw [h1, Except.ok.injEq, Prod.mk.injEq] at h3
        obtain ⟨rfl, rfl⟩ := h3
        exact (ih ht₁).2 (hafter _ _ h1) pre htail t₂ os h4

end Runs

/-- **When the routing table tracks exactly the resting orders**: after every command of a run it has an
entry for each of them and no other, if and only if every IOC or market order that reaches the book and is
no duplicate finds foreign depth for all of its quantity or for none. -/
theorem table_tracks_resting {P : Profile} (hP : P.Total) (config : RiskConfig) (recorder : Option (List UInt8))
    {inputs : List (ConnId × Command)} (hin : ∀ x ∈ inputs, x.2.Decodable) {t : Matching} {outs : List Dispatched}
    (hrun : run (step P) (new config recorder) inputs = .ok (t, outs)) :
    (∀ pre, pre <+: inputs → ∀ t₁ outs₁, run (step P) (new config recorder) pre = .ok (t₁, outs₁) → TableExact t₁) ↔
      Along (step P) (FillsWholeOrNot P) (new config recorder) inputs :=
  tableExact_run hP hin (mirrored_new P config recorder) (fun _ => Iff.rfl) hrun

/-- An IOC order that fills whole, and a market order with nobody to trade with. -/
theorem table_tracks_resting_whole :
    ∃ t outs, run (step .release) (new .default none)
        [(1, .newOrder 1 1 .sell 100 5 .limit .gtc 0), (2, .newOrder 2 1 .buy 100 5 .limit .ioc 0),
         (1, .newOrder 1 2 .buy 100 5 .market .gtc 0)] = .ok (t, outs) ∧ TableExact t := by
  obtain ⟨⟨t, outs⟩, hrun⟩ := exists_of_isOk (x := run (step .release) (new .default none)
    [(1, .newOrder 1 1 .sell 100 5 .limit .gtc 0), (2, .newOrder 2 1 .buy 100 5 .limit .ioc 0),
     (1, .newOrder 1 2 .buy 100 5 .market .gtc 0)]) (by decide +kernel)
  refine ⟨t, outs, hrun, ?_⟩
  refine (table_tracks_resting Profile.release_total .default none (by decide) hrun).2 ?_ _ (List.prefix_refl _) t outs hrun
  decide +kernel

/-- **A partial IOC fill stays in the table**: five of eight trade, three are discarded, and the order has
an entry though it never rested. -/
theorem discarded_order_keeps_entry :
    ∃ t outs, run (step .release) (new .default none)
        [(1, .newOrder 1 1 .sell 100 5 .limit .gtc 0), (2, .newOrder 2 1 .buy 100 8 .limit .ioc 0)] = .ok (t, outs) ∧
      ¬ TableExact t := by
  obtain ⟨⟨t, outs⟩, hrun, hstale⟩ := exists_ok_of_decide (x := run (step .release) (new .default none)
      [(1, .newOrder 1 1 .sell 100 5 .limit .gtc 0), (2, .newOrder 2 1 .buy 100 8 .limit .ioc 0)])
    (p := fun r => (2, 1) ∈ r.1.restingConn ∧ (2, 1) ∉ r.1.system.engine.book.orderIndex) (by decide +kernel)
  exact ⟨t, outs, hrun, fun hexact => hstale.2 ((hexact (2, 1)).1 hstale.1)⟩

end MatchingEngine
