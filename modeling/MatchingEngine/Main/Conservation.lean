import MatchingEngine.Proof.Settle

/-!
# Quantity is conserved

Whatever was submitted has been filled (twice, once for each side), rests, was cancelled
or was discarded, and the ledger's shadow of every order is the quantity in the book.

* `Did.recordSubmit`, `Did.recordModify`, `Did.recordCancel`: one operation, by its kind.
* `quantity_conserved`: every run of operations from the empty book.
-/

namespace MatchingEngine

open ConservationModel

namespace Ref

variable {r r' : Ref} {m : ConservationModel} {evs : List Event} {a i : ℕ}

/-- A submit that was rejected, own orders possibly cancelled first. -/
theorem Removed.recordSubmit {ks : List Key} (hr : Removed r ks r') (hb : Balanced m r) (hk : cancelledKeys evs = ks)
    (hrej : isRejected evs = true) (selfId : Key) (q : ℕ) (rests : Bool) :
    ∃ m', m.recordSubmit selfId q rests evs = .ok m' ∧ Balanced m' r' ∧ m'.filled = m.filled := by
  obtain ⟨m', hm', hb', hf⟩ := hr.recorded hb hk
  refine ⟨m', ?_, hb', hf⟩
  simp only [ConservationModel.recordSubmit, hm', hrej, if_true, bind, Except.bind, pure, Except.pure]

/-- A submit that was matched: its remainder rests or is discarded. -/
theorem Settled.recordSubmit {r₁ : Ref} {q q₁ : ℕ} (hs : Settled (a, i) r q r₁ q₁ evs) (hw : r₁.WF)
    (hfresh : r.find (a, i) = none) (hb : Balanced m r) (s : Side) (p : ℕ) (rests : Bool) (v : ℕ) :
    ∃ m', m.recordSubmit (a, i) q rests (evs ++ [.accepted a i v]) = .ok m' ∧
      Balanced m' (if rests then r₁.restRemainder a i s p q₁ else r₁) ∧
      m'.filled = m.filled + tradedQty (evs ++ [.accepted a i v]) := by
  have hgone : r₁.find (a, i) = none := hs.gone _ (Or.inl hfresh)
  -- first the pass over the cancellations, then the one over the fills
  obtain ⟨R, hC, hpass⟩ := hs.passes hfresh (m := m) (fun k _ => hb.resting k)
  obtain ⟨R', hF, hlook⟩ := hpass { m with
    submitted := m.submitted + q,
    cancelled := m.cancelled + ((cancelledKeys evs).map (fun k => (r.qtyOf k).getD 0)).sum, resting := R } rfl
  have hC' : m.consumeCancelled (evs ++ [.accepted a i v]) = m.consumeCancelled evs := by
    unfold consumeCancelled
    rw [List.foldlM_append]
    cases List.foldlM consumeCancelledEvent m evs <;> rfl
  have hclean : isRejected (evs ++ [.accepted a i v]) = false := by
    rw [isRejected_append, hs.clean]
    rfl
  have htraded : tradedQty (evs ++ [.accepted a i v]) = q - q₁ := by
    rw [tradedQty_append, hs.traded]
    rfl
  have hleft : minus q (q - q₁) = .ok q₁ := by
    have := hs.le
    rw [minus_ok (by omega), show q - (q - q₁) = q₁ by omega]
  have hsum := hb.conserved
  have htotal := hs.total
  have hle := hs.le
  unfold ConservationModel.recordSubmit consumeFilled
  simp only [hC', hC, hclean, Bool.false_eq_true, if_false, hF, List.foldlM_cons, List.foldlM_nil, consumeFilledEvent,
    bind, Except.bind, pure, Except.pure, hleft, htraded]
  have hrest : ∀ k, R'.lookup k = r₁.qtyOf k := by
    intro k
    rw [hlook]
    by_cases hk : k = (a, i)
    · rw [if_pos hk, hb.resting, hk, qtyOf_none.2 hfresh, qtyOf_none.2 hgone]
    · rw [if_neg hk]
  by_cases hq : q₁ > 0
  · rw [if_pos hq]
    cases rests with
    | true =>
      refine ⟨_, rfl, ⟨?_, ?_⟩, rfl⟩
      · rw [if_pos rfl, total_restRemainder, if_pos hq]
        simp only
        omega
      · intro k
        rw [if_pos rfl, hw.qtyOf_restRemainder hgone, lookup_insert_if]
        by_cases hk : k = (a, i)
        · rw [if_pos hk, if_pos hk]
          exact (if_neg (by omega)).symm
        · rw [if_neg hk, if_neg hk, hlook, if_neg hk]
    | false => exact ⟨_, rfl, ⟨by simp only [Bool.false_eq_true, if_false]; omega, hrest⟩, rfl⟩
  · -- nothing left to rest
    rw [if_neg hq]
    have hsame : (if rests then r₁.restRemainder a i s p q₁ else r₁) = r₁ := by
      cases rests with
      | true => rw [if_pos rfl]; exact if_neg hq
      | false => rfl
    rw [hsame]
    exact ⟨_, rfl, ⟨by simp only; omega, hrest⟩, rfl⟩

/-- An amend that left and came back through the book. -/
theorem Settled.recordModify {s : Side} {o : Order} {r₁ : Ref} {p q q₁ : ℕ}
    (hs : Settled (a, i) (r.remove s o) q r₁ q₁ evs) (h : r.WF) (hw : r₁.WF) (hf : r.find (a, i) = some (s, o))
    (hb : Balanced m r) :
    ∃ m', m.recordModify (a, i) (.replaced a i q false :: evs) = .ok m' ∧
      Balanced m' (r₁.restRemainder a i s p q₁) ∧ m'.filled = m.filled + tradedQty (.replaced a i q false :: evs) := by
  obtain ⟨ho, hkey⟩ := find_some hf
  have hself := h.find_remove hf
  have hgone : r₁.find (a, i) = none := hs.gone _ (Or.inl hself)
  have hold : m.resting.lookup (a, i) = some o.qty := by rw [hb.resting, ← hkey, h.qtyOf_self ho]
  -- the change of quantity is booked first
  have hm₁ : ∃ m₁ : ConservationModel, (if q ≥ o.qty then { m with submitted := m.submitted + (q - o.qty) }
        else { m with cancelled := m.cancelled + (o.qty - q) }) = m₁ ∧ m₁.resting = m.resting ∧
      m₁.filled = m.filled ∧ m₁.submitted + o.qty = 2 * m.filled + r.total Order.qty + m₁.cancelled + m₁.discarded + q := by
    have := hb.conserved
    by_cases hq : q ≥ o.qty
    · exact ⟨_, if_pos hq, rfl, rfl, by simp only; omega⟩
    · exact ⟨_, if_neg hq, rfl, rfl, by simp only; omega⟩
  obtain ⟨m₁, hm₁, hrest₁, hfill₁, hsum₁⟩ := hm₁
  obtain ⟨R, hC, hpass⟩ := hs.passes hself (m := m₁) (by
    intro k hk
    rw [hrest₁, hb.resting, h.qtyOf_remove ho, if_neg (by rw [hkey]; exact hk)])
  obtain ⟨R', hF, hlook⟩ := hpass { m₁ with
    cancelled := m₁.cancelled + ((cancelledKeys evs).map (fun k => ((r.remove s o).qtyOf k).getD 0)).sum,
    resting := R } rfl
  have hF := hF []
  rw [List.append_nil] at hF
  have hleft : minus q (q - q₁) = .ok q₁ := by
    have := hs.le
    rw [minus_ok (by omega), show q - (q - q₁) = q₁ by omega]
  have hclean : isRejected (.replaced a i q false :: evs) = false := hs.clean
  have htraded : tradedQty (.replaced a i q false :: evs) = q - q₁ := by
    rw [← hs.traded]
    simp [tradedQty]
  have htotal := hs.total
  have hrem := h.total_remove (w := Order.qty) ho
  have hle := hs.le
  unfold ConservationModel.recordModify consumeFilled
  simp only [hclean, Bool.false_eq_true, if_false, hold, expect_some, bind, Except.bind, hm₁, hC, hF, List.foldlM_nil,
    pure, Except.pure, hleft, htraded]
  by_cases hq : q₁ > 0
  · rw [if_pos hq]
    refine ⟨_, rfl, ⟨?_, ?_⟩, by simp only [hfill₁]⟩
    · rw [total_restRemainder, if_pos hq]
      simp only
      omega
    · intro k
      rw [hw.qtyOf_restRemainder hgone, lookup_insert_if]
      by_cases hk : k = (a, i)
      · rw [if_pos hk, if_pos hk]
        exact (if_neg (by omega)).symm
      · rw [if_neg hk, if_neg hk, hlook, if_neg hk]
  · rw [if_neg hq]
    refine ⟨_, rfl, ⟨?_, ?_⟩, by simp only [hfill₁]⟩
    · rw [total_restRemainder, if_neg hq]
      simp only
      omega
    · intro k
      rw [hw.qtyOf_restRemainder hgone, lookup_erase_if]
      by_cases hk : k = (a, i)
      · rw [if_pos hk, if_pos hk]
        exact (if_pos (by omega)).symm
      · rw [if_neg hk, if_neg hk, hlook, if_neg hk]

variable {s : Side} {p q : ℕ}

/-- A PostOnly submit that rests behind its own cancelled orders. -/
theorem Removed.recordPosted {own : List Order} {r₁ : Ref} (hr : Removed r (own.map Order.key) r₁) (hw : r₁.WF)
    (hfresh : r₁.find (a, i) = none) (hq : q ≠ 0) (hb : Balanced m r) :
    ∃ m', m.recordSubmit (a, i) q true (own.map (fun o => .cancelled o.account o.id) ++ [.accepted a i q]) = .ok m' ∧
      Balanced m' (r₁.rest s ⟨a, i, p, q⟩) ∧ m'.filled = m.filled := by
  have hkeys : cancelledKeys (own.map (fun o => .cancelled o.account o.id) ++ [.accepted a i q]) = own.map Order.key := by
    rw [cancelledKeys_append]
    exact (List.append_nil _).trans (cancelledKeys_map cancelled_key own)
  have hclean : isRejected (own.map (fun o => .cancelled o.account o.id) ++ [.accepted a i q]) = false := by
    rw [isRejected_append, isRejected_map cancelled_key]
    rfl
  obtain ⟨m₁, hC, hb₁, hf₁⟩ := hr.recorded hb hkeys
  have hF : ∀ m' : ConservationModel, (own.map (fun o : Order => Event.cancelled o.account o.id) ++
      [Event.accepted a i q]).foldlM (consumeFilledEvent (a, i)) (m', 0) = .ok (m', 0) := by
    intro m'
    apply consumeFilled_skip
    intro ev hev a' i' s' p' q' v' st he
    simp only [List.mem_append, List.mem_map, List.mem_singleton] at hev
    rcases hev with ⟨o, -, hev⟩ | hev <;> simp [he] at hev
  unfold ConservationModel.recordSubmit consumeFilled
  simp only [hC, hclean, Bool.false_eq_true, if_false, hF, bind, Except.bind, pure, Except.pure, minus_ok (Nat.zero_le q),
    Nat.sub_zero, if_pos (Nat.pos_of_ne_zero hq), if_true]
  refine ⟨_, rfl, ⟨?_, ?_⟩, hf₁⟩
  · have := hb₁.conserved
    rw [total_rest]
    simp only
    omega
  · intro k
    rw [hw.qtyOf_rest (o := ⟨a, i, p, q⟩) hfresh (Nat.pos_of_ne_zero hq), lookup_insert_if, hb₁.resting]
    rfl

/-- **A submit keeps the ledger balanced.** -/
theorem Did.recordSubmit {k : OrderKind} {t : Tif} {ts : ℕ} (hd : Did r (.newOrder a i s p q k t ts) r' evs) (h : r.WF)
    (hq : q ≠ 0) (hb : Balanced m r) :
    ∃ m', m.recordSubmit (a, i) q (k = .limit ∧ (t = .gtc ∨ t = .postOnly) : Bool) evs = .ok m' ∧ Balanced m' r' ∧
      m'.filled = m.filled + tradedQty evs := by
  cases hd with
  | idle quiet told =>
    rcases told with ⟨a', i', reason, rfl⟩ | he | ⟨e, he⟩
    · exact (Removed.nil r).recordSubmit hb rfl rfl _ _ _
    · simp at he
    · simp at he
  | entered limit rests fresh own bound drops =>
    have hrests : rests = (k = .limit ∧ (t = .gtc ∨ t = .postOnly) : Bool) := by
      cases rests with
      | true => exact (decide_eq_true ⟨(own rfl).1, Or.inl (own rfl).2.1⟩).symm
      | false => exact (decide_eq_false (drops rfl)).symm
    rw [← hrests]
    exact (h.settled s limit q fresh).recordSubmit h.sweep_wf fresh hb s p rests _
  | posted fresh clear =>
    have hr := h.removed_clear a s p
    obtain ⟨m', hm', hb', hf⟩ := hr.recordPosted (s := s) (p := p) h.clear_wf (h.clear_find fresh) hq hb
    refine ⟨m', hm', hb', ?_⟩
    rw [hf, tradedQty_append, tradedQty_map cancelled_key]
    rfl
  | refused fresh =>
    have hkeys : ∀ reason, cancelledKeys ((r.ownPrefix a s p).map (fun o => .cancelled o.account o.id) ++
        [.rejected a i reason]) = (r.ownPrefix a s p).map Order.key := by
      intro reason
      rw [cancelledKeys_append]
      exact (List.append_nil _).trans (cancelledKeys_map cancelled_key _)
    obtain ⟨m', hm', hb', hf⟩ := (h.removed_clear a s p).recordSubmit hb (hkeys .wouldCross)
      (by rw [isRejected_append]; exact Bool.or_true _) (a, i) q _
    refine ⟨m', hm', hb', ?_⟩
    rw [hf, tradedQty_append, tradedQty_map cancelled_key]
    rfl

/-- **An amend keeps the ledger balanced.** -/
theorem Did.recordModify (hd : Did r (.cancelReplace a i p q) r' evs) (h : r.WF) (hb : Balanced m r) :
    ∃ m', m.recordModify (a, i) evs = .ok m' ∧ Balanced m' r' ∧ m'.filled = m.filled + tradedQty evs := by
  cases hd with
  | idle quiet told =>
    rcases told with ⟨a', i', reason, rfl⟩ | he | ⟨e, he⟩
    · exact ⟨m, rfl, hb, rfl⟩
    · simp at he
    · simp at he
  | @amended _ _ _ s o found pos le =>
    obtain ⟨ho, hkey⟩ := find_some found
    have hold : m.resting.lookup (a, i) = some o.qty := by rw [hb.resting, ← hkey, h.qtyOf_self ho]
    have hsum := hb.conserved
    have htotal := h.total_setQty (w := Order.qty) ho q
    have hlook : ∀ k, (m.resting.insert (a, i) q).lookup k = (r.setQty s o.key q).qtyOf k := by
      intro k
      rw [lookup_insert_if, h.qtyOf_setQty ho pos, hkey, hb.resting]
    unfold ConservationModel.recordModify
    simp only [isRejected, List.any_cons, List.any_nil, Bool.or_false, Bool.false_eq_true, if_false, hold, expect_some,
      consumeCancelled, consumeFilled, List.foldlM_nil, bind, Except.bind, pure, Except.pure, minus_ok (Nat.zero_le q),
      Nat.sub_zero, if_pos pos]
    by_cases hge : q ≥ o.qty
    · rw [if_pos hge]
      exact ⟨_, rfl, ⟨by simp only at htotal ⊢; omega, hlook⟩, rfl⟩
    · rw [if_neg hge]
      exact ⟨_, rfl, ⟨by simp only at htotal ⊢; omega, hlook⟩, rfl⟩
  | @requeued _ _ _ _ s o found pos changes =>
    have h₁ := h.remove (find_some found).1
    exact (h₁.settled s p q (h.find_remove found)).recordModify h h₁.sweep_wf found hb

/-- **A cancel keeps the ledger balanced.** -/
theorem Did.recordCancel (hd : Did r (.cancelOrder a i) r' evs) (h : r.WF) (hb : Balanced m r) :
    ∃ m', m.recordCancelOrMassCancel evs = .ok m' ∧ Balanced m' r' ∧ m'.filled = m.filled + tradedQty evs := by
  cases hd with
  | idle quiet told =>
    rcases told with ⟨a', i', reason, rfl⟩ | he | ⟨e, he⟩
    · exact ⟨m, rfl, hb, rfl⟩
    · simp at he
    · simp at he
  | @cancelled _ _ s o found =>
    obtain ⟨ho, hkey⟩ := find_some found
    exact (h.removed_cons ho (Removed.nil _)).recorded hb (by rw [hkey]; rfl)

/-- **A mass cancel keeps the ledger balanced.** -/
theorem Did.recordMassCancel (hd : Did r (.massCancel a) r' evs) (h : r.WF) (hb : Balanced m r) :
    ∃ m', m.recordCancelOrMassCancel evs = .ok m' ∧ Balanced m' r' ∧ m'.filled = m.filled + tradedQty evs := by
  cases hd with
  | idle quiet told =>
    rcases told with ⟨a', i', reason, rfl⟩ | he | ⟨e, he⟩
    · exact ⟨m, rfl, hb, rfl⟩
    · simp at he
    · simp at he
  | emptied =>
    have hknown : ∀ id ∈ r.slots a, r.find (a, id) ≠ none := by
      intro id hid hn
      obtain ⟨o, ho, hk⟩ := (h.slots_mem a id).1 hid
      exact find_eq_none.1 hn o ho hk
    have hg : ∀ id : ℕ, Event.cancelled a id = .cancelled (a, id).1 (a, id).2 := fun _ => rfl
    have hkeys := cancelledKeys_map hg (r.slots a)
    obtain ⟨m', hm', hb', hf⟩ := (h.removed_foldl a (h.slots_nodup a) hknown).recorded hb hkeys
    refine ⟨m', ?_, hb', ?_⟩
    · unfold recordCancelOrMassCancel
      have hclean : isRejected (r.massCancel a).2 = false := isRejected_map hg (r.slots a)
      rw [hclean, if_neg (by simp)]
      exact hm'
    · rw [hf, show tradedQty (r.massCancel a).2 = 0 from tradedQty_map hg (r.slots a)]
      rfl

end Ref

section Run

variable {debug : Bool} {b : Book} {m : ConservationModel} {r : Ref} {op : Op}

/-- **One operation**: the book follows the reference state, and the ledger stays balanced. -/
theorem applyOp_balanced (hs : Sim (.exact debug) ⊤ b r) (hb : Ref.Balanced m r) (hop : op.Nonzero debug) :
    ∃ b' m' evs r', applyOp (.exact debug) (b, m) op = .ok ((b', m'), evs) ∧ Sim (.exact debug) ⊤ b' r' ∧
      Ref.Balanced m' r' ∧ m'.filled = m.filled + tradedQty evs := by
  have hd := r.did (.exact debug) op.command
  obtain ⟨b', hb', hs'⟩ := hs.dispatch hop.checked (Fits.of_total (Profile.exact_total debug) _)
    (by cases op <;> simp [Op.command])
  have hrec : ∃ m', m.record op (r.dispatch (.exact debug) op.command).2 = .ok m' ∧
      Ref.Balanced m' (r.dispatch (.exact debug) op.command).1 ∧
      m'.filled = m.filled + tradedQty (r.dispatch (.exact debug) op.command).2 := by
    cases op with
    | gtc a i s p q => exact hd.recordSubmit hs.wf hop.1 hb
    | ioc a i s p q => exact hd.recordSubmit hs.wf hop.1 hb
    | fok a i s p q => exact hd.recordSubmit hs.wf hop.1 hb
    | postOnly a i s p q => exact hd.recordSubmit hs.wf hop.1 hb
    | market a i s q => exact hd.recordSubmit hs.wf hop hb
    | cancel a i => exact hd.recordCancel hs.wf hb
    | modify a i p q => exact hd.recordModify hs.wf hb
    | massCancel a => exact hd.recordMassCancel hs.wf hb
  obtain ⟨m', hm', hbal, hf⟩ := hrec
  refine ⟨b', m', _, _, ?_, hs', hbal, hf⟩
  unfold applyOp
  simp only [Op.apply_eq_dispatch, hb', hm', bind, Except.bind, pure, Except.pure]

/-- The quantity resting in the book. -/
def Book.totalQty (b : Book) : ℕ := (b.nodes.map Node.qty).sum

/-- **Quantity is conserved.** Every run of operations from the empty book goes through, the ledger
adds up after it, `filled` counts every trade once, and the ledger's resting orders are the book's. -/
theorem quantity_conserved (debug : Bool) {ops : List Op} (hops : ∀ op ∈ ops, op.Nonzero debug) :
    ∃ b m evss, run (applyOp (.exact debug)) (Book.new, .default) ops = .ok ((b, m), evss) ∧
      m.submitted = 2 * m.filled + b.totalQty + m.cancelled + m.discarded ∧
      m.filled = (evss.map tradedQty).sum ∧
      ∀ a i, m.resting.lookup (a, i) = (b.restingOrderSnapshot a i).map Prod.snd := by
  have h0 : Ref.Balanced .default Ref.new := ⟨rfl, fun k => rfl⟩
  have hstart : ∃ r, Sim (.exact debug) ⊤ Book.new r ∧ Ref.Balanced .default r := ⟨Ref.new, Sim.new _ ⊤, h0⟩
  have hok : ∃ v evss, run (applyOp (.exact debug)) (Book.new, .default) ops = .ok (v, evss) ∧
      ∃ r, Sim (.exact debug) ⊤ v.1 r ∧ Ref.Balanced v.2 r := by
    refine run_ok (C := fun _ op => Op.Nonzero debug op) (fun v : Book × ConservationModel =>
      ∃ r, Sim (.exact debug) ⊤ v.1 r ∧ Ref.Balanced v.2 r) ?_ hstart (along_of_forall hops)
    rintro ⟨b, m⟩ op ⟨r, hs, hb⟩ hop
    obtain ⟨b', m', evs, r', hstep, hs', hb', -⟩ := applyOp_balanced hs hb hop
    exact ⟨(b', m'), evs, hstep, r', hs', hb'⟩
  obtain ⟨⟨b, m⟩, evss, hrun, r, hs, hb⟩ := hok
  -- the trades, counted along the same run
  have htrades := run_fold (C := fun _ op => Op.Nonzero debug op) (f := fun x evs => x + tradedQty evs)
    (fun (x : ℕ) (v : Book × ConservationModel) =>
      v.2.filled = x ∧ ∃ r, Sim (.exact debug) ⊤ v.1 r ∧ Ref.Balanced v.2 r)
    (by
      rintro x ⟨b, m⟩ op ⟨b', m'⟩ evs ⟨hx, r, hs, hb⟩ hop hstep
      obtain ⟨b₁, m₁, evs₁, r₁, hstep₁, hs₁, hb₁, hf⟩ := applyOp_balanced hs hb hop
      rw [hstep₁, Except.ok.injEq, Prod.mk.injEq, Prod.mk.injEq] at hstep
      obtain ⟨⟨rfl, rfl⟩, rfl⟩ := hstep
      exact ⟨by rw [hf, ← hx], r₁, hs₁, hb₁⟩)
    ⟨rfl, hstart⟩ (along_of_forall hops) hrun
  refine ⟨b, m, evss, hrun, ?_, ?_, ?_⟩
  · have htotal : b.totalQty = r.total Order.qty := by
      unfold Book.totalQty Ref.total
      rw [← (hs.nodes_perm.map Order.qty).sum_eq, List.map_map]
      rfl
    rw [htotal]
    exact hb.conserved
  · rw [List.sum_eq_foldl, List.foldl_map]
    exact htrades.1
  · intro a i
    rw [hb.resting, hs.restingOrderSnapshot]
    unfold Ref.qtyOf
    rw [Option.map_map]
    rfl

/-- A PostOnly reject after an own cancel, an IOC remainder discarded, an amend that trades on its way. -/
theorem quantity_conserved_mixed :
    ∃ b m evss, run (applyOp (.exact true)) (Book.new, .default)
        [.gtc 1 1 .sell 100 5, .gtc 2 1 .sell 101 5, .postOnly 1 2 .buy 102 3, .ioc 3 1 .buy 101 9,
         .gtc 2 2 .sell 103 4, .gtc 3 2 .buy 90 6, .modify 3 2 103 7] = .ok ((b, m), evss) ∧
      m.submitted = 2 * m.filled + b.totalQty + m.cancelled + m.discarded := by
  obtain ⟨b, m, evss, hrun, hsum, -⟩ := @quantity_conserved true [.gtc 1 1 .sell 100 5, .gtc 2 1 .sell 101 5,
    .postOnly 1 2 .buy 102 3, .ioc 3 1 .buy 101 9, .gtc 2 2 .sell 103 4, .gtc 3 2 .buy 90 6, .modify 3 2 103 7] (by decide)
  exact ⟨b, m, evss, hrun, hsum⟩

end Run

end MatchingEngine
