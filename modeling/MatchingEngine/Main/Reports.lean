import MatchingEngine.Risk.Gate
import MatchingEngine.Ref.Quantity

/-!
# Execution reports reconstruct the book

A client that folds the execution reports into a map from order key to quantity
holds, after every command, exactly the resting orders and their quantities.

The delicate point is the aggressor: while it matches, its own `Filled` reports carry
the quantity not yet matched, so the map runs ahead of the book at that one key
(`reports_sweep`) until `Accepted` or the end of the amend settles it.
-/

namespace MatchingEngine

/-- What a client knows: order key to quantity. -/
abbrev Reports := Finmap (fun _ : Key => ℕ)

/-- Set a quantity, removing the entry at zero. -/
def Reports.set (m : Reports) (k : Key) (q : ℕ) : Reports := if q = 0 then m.erase k else m.insert k q

/-- Take one event into account. -/
def Reports.take (m : Reports) : Event → Reports
  | .accepted a i q => m.set (a, i) q
  | .filled a i _ _ _ q _ => m.set (a, i) q
  | .cancelled a i => m.erase (a, i)
  | .replaced a i q _ => m.insert (a, i) q
  | _ => m

theorem Reports.lookup_set (m : Reports) (k k' : Key) (q : ℕ) :
    (m.set k q).lookup k' = if k' = k then present q else m.lookup k' := by
  unfold Reports.set present
  by_cases hq : q = 0
  · rw [if_pos hq, if_pos hq, lookup_erase_if]
  · rw [if_neg hq, if_neg hq, lookup_insert_if]

theorem Reports.take_quiet (m : Reports) {ev : Event} (h : ev.Quiet) : m.take ev = m := by
  cases ev <;> first
    | rfl
    | exact h.elim

theorem Reports.foldl_quiet (m : Reports) {evs : List Event} (h : ∀ ev ∈ evs, ev.Quiet) : evs.foldl .take m = m := by
  induction evs generalizing m with
  | nil => rfl
  | cons ev evs ih =>
    rw [List.foldl_cons, m.take_quiet (h ev (by simp))]
    exact ih m (fun ev hev => h ev (List.mem_cons_of_mem _ hev))

namespace Ref

variable {r : Ref} {s : Side} {o : Order} {k : Key}

/-- The reports of a sweep: exact off the aggressor's key, and at that key the quantity not yet
matched, provided the map held the full quantity before. -/
theorem WF.reports_sweep (h : r.WF) {a i : ℕ} (limit q : ℕ) (hf : r.find (a, i) = none) {m : Reports}
    (hm : ∀ k, k ≠ (a, i) → m.lookup k = r.qtyOf k) :
    (∀ k, k ≠ (a, i) → ((r.sweep a i s limit q).2.2.foldl .take m).lookup k =
      (r.sweep a i s limit q).1.qtyOf k) ∧
    (m.lookup (a, i) = present q → ((r.sweep a i s limit q).2.2.foldl .take m).lookup (a, i) =
      present (r.sweep a i s limit q).2.1) := by
  revert hf hm m
  refine h.sweep_induct (motive := fun r q res => r.find (a, i) = none → ∀ {m : Reports},
    (∀ k, k ≠ (a, i) → m.lookup k = r.qtyOf k) →
      (∀ k, k ≠ (a, i) → (res.2.2.foldl .take m).lookup k = res.1.qtyOf k) ∧
      (m.lookup (a, i) = present q → (res.2.2.foldl .take m).lookup (a, i) = present res.2.1)) a i s limit ?_ ?_ ?_ ?_ q
  · intro r q _ _ _ m hm
    exact ⟨hm, fun h0 => h0⟩
  · intro r q o l r' q' evs h hc _ _ _ ih hf m hm
    have ho := mem_of_cons hc
    have hne : o.key ≠ (a, i) := find_eq_none.1 hf o (r.side_sub_orders _ o ho)
    have hf' : (r.remove s.opposite o).find (a, i) = none := by
      rw [find_eq_none] at hf ⊢
      intro x hx
      exact hf x ((h.mem_remove ho).1 hx).1
    obtain ⟨h1, h2⟩ := ih hf' (m := m.erase o.key) (by
      intro k hk
      rw [lookup_erase_if, h.qtyOf_remove ho]
      by_cases hko : k = o.key
      · rw [if_pos hko, if_pos hko]
      · rw [if_neg hko, if_neg hko, hm k hk])
    refine ⟨h1, fun h0 => h2 ?_⟩
    rw [lookup_erase_if, if_neg (fun he => hne he.symm), h0]
  · intro r q o l r' q' evs h hc _ hq _ hle ih hf m hm
    have ho := mem_of_cons hc
    have hne : o.key ≠ (a, i) := find_eq_none.1 hf o (r.side_sub_orders _ o ho)
    have hf' : Ref.find { r.remove s.opposite o with lastTrade := some o.price } (a, i) = none := by
      rw [find_eq_none] at hf ⊢
      intro x hx
      exact hf x ((h.mem_remove ho).1 hx).1
    -- the aggressor's fill, then the maker's
    have hz : o.qty - o.qty = 0 := Nat.sub_self _
    obtain ⟨h1, h2⟩ := ih hf' (m := (m.set (a, i) (q - o.qty)).set o.key (o.qty - o.qty)) (by
      intro k hk
      rw [Reports.lookup_set, Reports.lookup_set, qtyOf_withTrade, h.qtyOf_remove ho, if_neg hk, hz]
      by_cases hko : k = o.key
      · rw [if_pos hko, if_pos hko]; rfl
      · rw [if_neg hko, if_neg hko, hm k hk])
    refine ⟨h1, fun _ => h2 ?_⟩
    rw [Reports.lookup_set, if_neg (fun he => hne he.symm), Reports.lookup_set, if_pos rfl]
  · intro r q o l h hc _ hq _ hlt hf m hm
    have ho := mem_of_cons hc
    have hne : o.key ≠ (a, i) := find_eq_none.1 hf o (r.side_sub_orders _ o ho)
    have hpos : 0 < o.qty - q := by omega
    have hfold : (fillEvents a i s o q 0).foldl Reports.take m = (m.set (a, i) 0).set o.key (o.qty - q) := rfl
    constructor
    · intro k hk
      simp only
      rw [hfold, Reports.lookup_set, Reports.lookup_set, if_neg hk, qtyOf_withTrade, h.qtyOf_setQty ho hpos]
      by_cases hko : k = o.key
      · rw [if_pos hko, if_pos hko]
        exact if_neg hpos.ne'
      · rw [if_neg hko, if_neg hko, hm k hk]
    · intro _
      simp only
      rw [hfold, Reports.lookup_set, if_neg (fun he => hne he.symm), Reports.lookup_set, if_pos rfl]

/-- The reports of the PostOnly check. -/
theorem WF.reports_clear (h : r.WF) (a limit : ℕ) {m : Reports} (hm : ∀ k, m.lookup k = r.qtyOf k) :
    ∀ k, (((r.ownPrefix a s limit).map (fun o => Event.cancelled o.account o.id)).foldl Reports.take m).lookup k =
      (r.clearOwn a s limit).qtyOf k := by
  revert hm m
  refine h.clear_induct (motive := fun r r' own => ∀ {m : Reports}, (∀ k, m.lookup k = r.qtyOf k) →
    ∀ k, ((own.map (fun o => Event.cancelled o.account o.id)).foldl Reports.take m).lookup k = r'.qtyOf k) a s limit ?_ ?_
  · intro r _ _ m hm; exact hm
  · intro r o l r' own h hc _ _ ih m hm
    have ho := mem_of_cons hc
    refine ih (m := m.erase o.key) ?_
    intro k
    rw [lookup_erase_if, h.qtyOf_remove ho, hm k]

/-- The reports of a mass cancel. -/
theorem WF.reports_massCancel (h : r.WF) (a : ℕ) (ids : List ℕ) {m : Reports} (hm : ∀ k, m.lookup k = r.qtyOf k) :
    ∀ k, ((ids.map (fun id => Event.cancelled a id)).foldl Reports.take m).lookup k =
      (ids.foldl (fun r id => r.removeKey (a, id)) r).qtyOf k := by
  induction ids generalizing r m with
  | nil => exact hm
  | cons i ids ih =>
    rw [List.map_cons, List.foldl_cons, List.foldl_cons]
    apply ih (h.removeKey (a, i))
    intro k
    show (m.erase (a, i)).lookup k = (r.removeKey (a, i)).qtyOf k
    rw [lookup_erase_if, hm, h.qtyOf_removeKey]

/-- **The reports of a command carry the map along.** -/
theorem Did.reports {P : Profile} {c : Command} {r' : Ref} {evs : List Event} (hd : Did r c r' evs) (h : r.WF) (hc : c.Checked P)
    {m : Reports} (hm : ∀ k, m.lookup k = r.qtyOf k) : ∀ k, (evs.foldl Reports.take m).lookup k = r'.qtyOf k := by
  cases hd with
  | idle quiet => rw [m.foldl_quiet quiet]; exact hm
  | @entered a i s p q kind t ts limit rests fresh own =>
    -- the sweep settles the makers; the acceptance at the end settles the order itself
    obtain ⟨h1, -⟩ := h.reports_sweep (s := s) limit q fresh (m := m) (fun k _ => hm k)
    intro k
    rw [List.foldl_append]
    show (Reports.set _ (a, i) _).lookup k = _
    rw [Reports.lookup_set]
    have hfresh : (r.sweep a i s limit q).1.find (a, i) = none := h.sweep_find fresh
    by_cases hr : rests = true
    · rw [if_pos hr, if_pos hr, h.sweep_wf.qtyOf_restRemainder hfresh]
      by_cases hk : k = (a, i)
      · rw [if_pos hk, if_pos hk]
      · rw [if_neg hk, if_neg hk, h1 k hk]
    · rw [if_neg hr, if_neg hr]
      by_cases hk : k = (a, i)
      · rw [if_pos hk, hk, eq_comm]
        exact qtyOf_none.2 hfresh
      · rw [if_neg hk, h1 k hk]
  | @posted a i s p q ts fresh clear =>
    have h1 := h.reports_clear (s := s) a p hm
    intro k
    rw [List.foldl_append]
    show (Reports.set _ (a, i) q).lookup k = _
    have hq : 0 < (⟨a, i, p, q⟩ : Order).qty := Nat.pos_of_ne_zero hc.1
    have hf : (r.clearOwn a s p).find (⟨a, i, p, q⟩ : Order).key = none := h.clear_find fresh
    rw [Reports.lookup_set, h1, h.clear_wf.qtyOf_rest hf hq]
    by_cases hk : k = (a, i)
    · rw [if_pos hk, if_pos (show k = Order.key ⟨a, i, p, q⟩ from hk)]
      exact if_neg hc.1
    · rw [if_neg hk, if_neg (show ¬ k = Order.key ⟨a, i, p, q⟩ from hk)]
  | @refused a i s p q ts fresh =>
    intro k
    rw [List.foldl_append]
    exact h.reports_clear a p hm k
  | @amended a i q s o found pos le =>
    obtain ⟨ho, hkey⟩ := find_some found
    intro k
    show (m.insert (a, i) q).lookup k = _
    rw [lookup_insert_if, h.qtyOf_setQty ho pos, hkey, hm]
  | @requeued a i p q s o found pos changes =>
    obtain ⟨ho, hkey⟩ := find_some found
    -- `Replaced` puts the full quantity in, the fills behind it take it down
    have h₁ := h.remove ho
    have hfresh := h.find_remove found
    obtain ⟨h1, h2⟩ := h₁.reports_sweep (s := s) p q hfresh (m := m.insert (a, i) q) (by
      intro k hk
      rw [lookup_insert_if, if_neg hk, h.qtyOf_remove ho, hkey, if_neg hk, hm])
    intro k
    rw [List.foldl_cons, h₁.sweep_wf.qtyOf_restRemainder (h₁.sweep_find hfresh)]
    by_cases hk : k = (a, i)
    · rw [if_pos hk, hk]
      apply h2
      rw [lookup_insert_if, if_pos rfl]
      exact (if_neg pos.ne').symm
    · rw [if_neg hk]
      exact h1 k hk
  | @cancelled a i s o found =>
    obtain ⟨ho, hkey⟩ := find_some found
    intro k
    show (m.erase (a, i)).lookup k = _
    rw [lookup_erase_if, h.qtyOf_remove ho, hkey, hm]
  | emptied => exact h.reports_massCancel _ _ hm

end Ref

/-- The events of a run, as a client sees them. -/
def reportsOf (evss : List (List (ℕ × Event))) : Reports := (evss.flatten.map Prod.snd).foldl Reports.take ∅

theorem reportsOf_eq (evss : List (List (ℕ × Event))) :
    reportsOf evss = evss.foldl (fun m evs => (evs.map Prod.snd).foldl Reports.take m) ∅ := by
  unfold reportsOf
  rw [List.foldl_map, List.foldl_flatten]
  congr 1
  funext m evs
  rw [List.foldl_map]

/-- **Execution reports reconstruct the book.** After any run through the risk gate, folding the
reports gives exactly the keys of the order index, each with its resting quantity. -/
theorem reports_reconstruct_book {P : Profile} (hP : P.Total) (config : RiskConfig) {cmds : List Command}
    (hcmds : ∀ c ∈ cmds, c.Decodable) {s : System} {evss : List (List (ℕ × Event))}
    (hrun : (System.new config).runFrom P cmds = .ok (s, evss)) :
    (∀ k, k ∈ reportsOf evss ↔ k ∈ s.engine.book.orderIndex) ∧
    ∀ k x n, s.engine.book.orderIndex.lookup k = some x → s.engine.book.arena.get x = some n →
      (reportsOf evss).lookup k = some n.qty := by
  have hinv : ∃ r, Sim P ⊤ s.engine.book r ∧ ∀ k, (reportsOf evss).lookup k = r.qtyOf k := by
    rw [reportsOf_eq]
    refine run_fold (C := fun _ c => c.Decodable)
      (fun (m : Reports) (s : System) => ∃ r, Sim P ⊤ s.engine.book r ∧ ∀ k, m.lookup k = r.qtyOf k) ?_
      ⟨Ref.new, Sim.new P ⊤, fun k => rfl⟩ (along_of_forall hcmds) hrun
    rintro m s c s' evs ⟨r, hs, hm⟩ hc hstep
    obtain ⟨-, -, ⟨he, a, i, reason, rfl⟩ | ⟨-, evs', ha, rfl⟩⟩ := System.processCommand_cases hstep
    · -- rejected: neither the book nor the map moves
      refine ⟨r, he ▸ hs, ?_⟩
      exact hm
    · obtain ⟨rfl, hs'⟩ := hs.applied hP hc ha
      refine ⟨_, hs', ?_⟩
      rw [System.map_snd_numbered, Ref.foldl_apply (fun _ _ _ => rfl)]
      exact (r.did P c).reports hs.wf (hc.checked (P := P)) hm
  obtain ⟨r, hs, hm⟩ := hinv
  constructor
  · intro k
    rw [← Finmap.lookup_isSome, ← Finmap.lookup_isSome, hm]
    rcases hs.lookup k with ⟨hl, hf⟩ | ⟨x, n, hl, -, -, hf⟩
    · rw [hl, Ref.qtyOf_none.2 hf]
    · rw [hl]
      simp [Ref.qtyOf, hf]
  · intro k x n hl hn
    rw [hm]
    rcases hs.lookup k with ⟨hl', -⟩ | ⟨x', n', hl', hn', -, hf⟩
    · rw [hl'] at hl
      simp at hl
    · obtain rfl : x = x' := Option.some.inj (hl.symm.trans hl')
      obtain rfl : n = n' := Option.some.inj (hn.symm.trans hn')
      simp [Ref.qtyOf, hf, Node.order]

/-- A fill on both sides, an amend that trades on its way, and an order the gate turns away. -/
theorem reports_reconstruct_book_amend :
    ∃ s evss, (System.new .default).runFrom .release
        [.newOrder 1 1 .sell 100 5 .limit .gtc 0, .newOrder 1 2 .sell 102 5 .limit .gtc 0,
         .newOrder 2 1 .buy 100 8 .limit .gtc 0, .cancelReplace 2 1 102 4,
         .newOrder 3 1 .buy 100 2000000 .limit .gtc 0] = .ok (s, evss) ∧
      ∀ k, k ∈ reportsOf evss ↔ k ∈ s.engine.book.orderIndex := by
  obtain ⟨⟨s, evss⟩, hrun⟩ := exists_of_isOk (x := (System.new .default).runFrom .release
    [.newOrder 1 1 .sell 100 5 .limit .gtc 0, .newOrder 1 2 .sell 102 5 .limit .gtc 0,
     .newOrder 2 1 .buy 100 8 .limit .gtc 0, .cancelReplace 2 1 102 4,
     .newOrder 3 1 .buy 100 2000000 .limit .gtc 0]) (by decide +kernel)
  exact ⟨s, evss, hrun, (reports_reconstruct_book Profile.release_total .default (by decide) hrun).1⟩

end MatchingEngine
