import MatchingEngine.Proof.Walk

/-!
# The engine refines the reference model

One command on a book that stands for `r` leaves a book that stands for what the
reference model makes of `r`, and emits the reference model's events. The only
conditions are that the sums of the resulting state can be stored, and, for a
snapshot, that no zero price rests.

* `Sim.dispatch`: one command, by its kind.
* `Sim.apply`: with the top-of-book update.
-/

namespace MatchingEngine

namespace Sim

variable {P : Profile} {N : ℕ∞} {b : Book} {r : Ref} {a i : ℕ} {s : Side} {p q : ℕ}

/-- A book operation that does to the book what `res` is to the state. -/
def Refines (P : Profile) (N : ℕ∞) (op : Except Panic (Book × List Event)) (res : Ref × List Event) : Prop :=
  ∃ b', op = .ok (b', res.2) ∧ Sim P N b' res.1

theorem lookup_none (h : Sim P N b r) {k : Key} (hk : r.find k = none) : b.orderIndex.lookup k = none := by
  rcases h.lookup k with ⟨hl, -⟩ | ⟨x, n, -, -, -, hf⟩
  · exact hl
  · rw [hk] at hf
    simp at hf

/-- The duplicate check. -/
theorem unlessDuplicate (h : Sim P N b r) {op : Except Panic (Book × List Event)} {res : Ref × List Event}
    (hop : r.find (a, i) = none → Refines P N op res) :
    Refines P N (b.unlessDuplicate a i op) (r.unlessDuplicate a i res) := by
  unfold Book.unlessDuplicate Ref.unlessDuplicate
  rcases h.lookup (a, i) with ⟨hl, hf⟩ | ⟨x, n, hl, -, -, hf⟩
  · rw [hl, hf]
    exact hop hf
  · rw [hl, hf]
    exact ⟨b, rfl, h⟩

/-- Resting what is left over. -/
theorem restRemainder (h : Sim P N b r) (hk : r.find (a, i) = none) (hf : Fits P N (r.restRemainder a i s p q)) :
    ∃ b', (if q > 0 then b.rest P a i s p q else .ok b) = .ok b' ∧ Sim P N b' (r.restRemainder a i s p q) := by
  unfold Ref.restRemainder at hf ⊢
  by_cases hq : q > 0
  · rw [if_pos hq] at hf ⊢
    rw [if_pos hq]
    exact h.rest (h.lookup_none hk) hq hf
  · rw [if_neg hq, if_neg hq]
    exact ⟨b, rfl, h⟩

theorem submitGtc (h : Sim P N b r) (hq : q ≠ 0) (hp : P.debugAssertions = true → p ≠ 0)
    (hf : Fits P N (r.submitGtc a i s p q).1) :
    Refines P N (b.submitGtc P a i s p q) (r.submitGtc a i s p q) := by
  unfold Book.submitGtc
  rw [Profile.debugAssert_ok (fun _ => hq), Profile.debugAssert_ok hp]
  refine h.unlessDuplicate (fun hk => ?_)
  unfold Ref.submitGtc Ref.unlessDuplicate at hf
  rw [hk] at hf
  obtain ⟨b₁, hb₁, hs₁⟩ := h.sweep a i s p q
  have hf' : Fits P N ((r.sweep a i s p q).1.restRemainder a i s p (r.sweep a i s p q).2.1) := hf
  obtain ⟨b₂, hb₂, hs₂⟩ := hs₁.restRemainder (h.wf.sweep_find hk) hf'
  refine ⟨b₂, ?_, hs₂⟩
  by_cases hrem : (r.sweep a i s p q).2.1 > 0
  · rw [if_pos hrem] at hb₂
    simp only [hb₁, bind, Except.bind, if_pos hrem, hb₂, pure, Except.pure]
  · rw [if_neg hrem, Except.ok.injEq] at hb₂
    simp only [hb₁, bind, Except.bind, if_neg hrem, hb₂, pure, Except.pure]

/-- IOC and market orders: sweep and discard the remainder. -/
theorem sweepOnly (h : Sim P N b r) (limit : ℕ) :
    Refines P N (b.unlessDuplicate a i do
        let (b, _, evs) ← b.sweep P a i s limit q
        pure (b, evs ++ [.accepted a i 0])) (r.submitIoc a i s limit q) := by
  refine h.unlessDuplicate (fun _ => ?_)
  obtain ⟨b₁, hb₁, hs₁⟩ := h.sweep a i s limit q
  exact ⟨b₁, by simp only [hb₁, bind, Except.bind, pure, Except.pure], hs₁⟩

theorem submitIoc (h : Sim P N b r) (hq : q ≠ 0) (hp : P.debugAssertions = true → p ≠ 0) :
    Refines P N (b.submitIoc P a i s p q) (r.submitIoc a i s p q) := by
  unfold Book.submitIoc
  rw [Profile.debugAssert_ok (fun _ => hq), Profile.debugAssert_ok hp]
  exact h.sweepOnly p

theorem submitMarket (h : Sim P N b r) (hq : q ≠ 0) :
    Refines P N (b.submitMarket P a i s q) (r.submitIoc a i s (Book.marketBound s) q) := by
  unfold Book.submitMarket
  rw [Profile.debugAssert_ok (fun _ => hq)]
  exact h.sweepOnly (Book.marketBound s)

theorem submitFok (h : Sim P N b r) (hq : q ≠ 0) (hp : P.debugAssertions = true → p ≠ 0) :
    Refines P N (b.submitFok P a i s p q) (r.submitFok a i s p q) := by
  unfold Book.submitFok
  rw [Profile.debugAssert_ok (fun _ => hq), Profile.debugAssert_ok hp]
  refine h.unlessDuplicate (fun _ => ?_)
  rw [h.isFillable]
  by_cases hfill : q ≤ r.foreignDepth a s p
  · obtain ⟨b₁, hb₁, hs₁⟩ := h.sweep a i s p q
    rw [if_pos hfill]
    refine ⟨b₁, ?_, hs₁⟩
    have hz := h.wf.sweep_fillable (a := a) (i := i) hfill
    simp only [bind, Except.bind, decide_eq_true hfill, if_true, hb₁, Profile.debugAssert_ok (fun _ => hz), pure,
      Except.pure]
  · rw [if_neg hfill]
    refine ⟨b, ?_, h⟩
    simp only [bind, Except.bind, decide_eq_false hfill, Bool.false_eq_true, if_false, pure, Except.pure]

theorem submitPostonly (h : Sim P N b r) (hq : q ≠ 0) (hp : P.debugAssertions = true → p ≠ 0)
    (hf : Fits P N (r.submitPostonly a i s p q).1) :
    Refines P N (b.submitPostonly P a i s p q) (r.submitPostonly a i s p q) := by
  unfold Book.submitPostonly
  rw [Profile.debugAssert_ok (fun _ => hq), Profile.debugAssert_ok hp]
  refine h.unlessDuplicate (fun hk => ?_)
  unfold Ref.submitPostonly Ref.unlessDuplicate at hf
  rw [hk] at hf
  obtain ⟨b₁, hb₁, hs₁⟩ := h.stpClear a s p
  by_cases hex : ∃ o ∈ r.crossing s p, o.account ≠ a
  · rw [if_pos hex]
    refine ⟨b₁, ?_, hs₁⟩
    simp only [hb₁, bind, Except.bind, decide_eq_true hex, if_true, pure, Except.pure]
  · simp only [Option.isSome_none, Bool.false_eq_true, if_false, if_neg hex] at hf
    rw [if_neg hex]
    obtain ⟨b₂, hb₂, hs₂⟩ := hs₁.rest (hs₁.lookup_none (h.wf.clear_find hk)) (Nat.pos_of_ne_zero hq) hf
    refine ⟨b₂, ?_, hs₂⟩
    simp only [hb₁, bind, Except.bind, decide_eq_false hex, Bool.false_eq_true, if_false, hb₂, pure, Except.pure]

theorem modify (h : Sim P N b r) (hf : Fits P N (r.modify a i p q).1) :
    Refines P N (b.modify P a i p q) (r.modify a i p q) := by
  unfold Book.modify
  unfold Ref.modify at hf ⊢
  by_cases hq : q = 0
  · rw [if_pos hq, if_pos hq]
    exact ⟨b, rfl, h⟩
  rw [if_neg hq] at hf ⊢
  rw [if_neg hq]
  rcases h.lookup (a, i) with ⟨hl, hfind⟩ | ⟨x, n, hl, hn, hkey, hfind⟩
  · rw [hl, hfind]
    exact ⟨b, rfl, h⟩
  rw [hfind] at hf ⊢
  rw [hl]
  simp only [hn, expect_some, bind, Except.bind] at hf ⊢
  by_cases hkeep : p = n.order.price ∧ q ≤ n.order.qty
  · -- in place
    obtain ⟨b', hb', hs'⟩ := h.amend hn (Nat.pos_of_ne_zero hq) hkeep.2
    have hcond : ¬ p ≠ n.price ∧ ¬ q > n.qty := ⟨fun hne => hne hkeep.1, fun hgt => absurd hkeep.2 (by
      show ¬ q ≤ n.qty
      omega)⟩
    rw [if_pos hkeep, if_pos hcond, hb']
    exact ⟨b', rfl, hs'⟩
  · -- priority lost: out, through the book, and back
    have hcond : ¬ (¬ p ≠ n.price ∧ ¬ q > n.qty) := by
      rintro ⟨h1, h2⟩
      apply hkeep
      have h1' : p = n.price := by simpa using h1
      exact ⟨h1', by show q ≤ n.qty; omega⟩
    rw [if_neg hkeep] at hf ⊢
    rw [if_neg hcond]
    obtain ⟨b₁, hb₁, hs₁⟩ := h.unlink hn
    obtain ⟨b₂, hb₂, hs₂⟩ := hs₁.sweep a i n.side p q
    have hfresh : (r.remove n.side n.order).find (a, i) = none := by
      rw [Ref.find_eq_none]
      intro o ho
      rw [← hkey]
      exact ((h.wf.mem_remove (h.node hn)).1 ho).2
    set res := (r.remove n.side n.order).sweep a i n.side p q with hres
    have hf' : Fits P N (res.1.restRemainder a i n.side p res.2.1) := hf
    obtain ⟨b₃, hb₃, hs₃⟩ := hs₂.restRemainder (hs₁.wf.sweep_find hfresh) hf'
    refine ⟨b₃, ?_, hs₃⟩
    by_cases hrem : res.2.1 > 0
    · rw [if_pos hrem] at hb₃
      simp only [hb₁, hb₂, if_pos hrem, hb₃, pure, Except.pure]
    · rw [if_neg hrem, Except.ok.injEq] at hb₃
      simp only [hb₁, hb₂, if_neg hrem, hb₃, pure, Except.pure]

theorem cancel (h : Sim P N b r) : Refines P N (b.cancel P a i) (r.cancel a i) := by
  unfold Book.cancel Ref.cancel
  rcases h.lookup (a, i) with ⟨hl, hfind⟩ | ⟨x, n, hl, hn, -, hfind⟩
  · rw [hl, hfind]
    exact ⟨b, rfl, h⟩
  · obtain ⟨b', hb', hs'⟩ := h.unlink hn
    rw [hl, hfind]
    exact ⟨b', by simp only [hb', bind, Except.bind, pure, Except.pure], hs'⟩

/-- The mass-cancel loop over slots of the account that are still live. -/
theorem massCancelLoop (a : ℕ) :
    ∀ (slots : List ℕ) (b : Book) (r : Ref), Sim P N b r → slots.Nodup →
      (∀ x ∈ slots, ∃ n, b.arena.get x = some n ∧ n.account = a) →
      Refines P N (b.massCancelLoop P a slots)
        ((slots.map b.idAt).foldl (fun r id => r.removeKey (a, id)) r, (slots.map b.idAt).map (.cancelled a)) := by
  intro slots
  induction slots with
  | nil => intro b r h _ _; exact ⟨b, rfl, h⟩
  | cons x slots ih =>
    intro b r h hnd hlive
    rw [List.nodup_cons] at hnd
    obtain ⟨n, hn, ha⟩ := hlive x (by simp)
    obtain ⟨b₁, hb₁, hs₁⟩ := h.unlink hn
    have hothers := h.unlink_others hn hb₁
    have hne : ∀ y ∈ slots, y ≠ x := fun y hy he => hnd.1 (he ▸ hy)
    have hsame : ∀ y ∈ slots, (b₁.arena.get y).map Node.order = (b.arena.get y).map Node.order := fun y hy => by
      rw [hothers, if_neg (hne y hy)]
    have hids : ∀ y ∈ slots, b₁.idAt y = b.idAt y := by
      intro y hy
      have := congrArg (Option.map Order.id) (hsame y hy)
      unfold Book.idAt
      simpa only [Option.map_map, Function.comp_def, Node.order] using congrArg (Option.getD · 0) this
    obtain ⟨b₂, hb₂, hs₂⟩ := ih b₁ _ hs₁ hnd.2 (by
      intro y hy
      obtain ⟨m, hm, hma⟩ := hlive y (List.mem_cons_of_mem _ hy)
      have := hsame y hy
      rw [hm] at this
      obtain ⟨m', hm', hmo⟩ := Option.map_eq_some_iff.1 this
      exact ⟨m', hm', (congrArg Order.account hmo).trans hma⟩)
    rw [List.map_congr_left hids] at hb₂ hs₂
    -- the account's own order under that id is the one unlinked
    have hid : b.idAt x = n.id := by simp [Book.idAt, hn]
    have hkey : r.removeKey (a, n.id) = r.remove n.side n.order := by
      have hf : r.find (a, n.id) = some (n.side, n.order) := ha ▸ h.wf.find_mem (h.node hn)
      simp only [Ref.removeKey, hf]
    refine ⟨b₂, ?_, ?_⟩
    · simp only [Book.massCancelLoop, hn, expect_some, hb₁, hb₂, bind, Except.bind, pure, Except.pure, List.map_cons,
        hid]
    · rw [List.map_cons, List.foldl_cons, hid, hkey]
      exact hs₂

theorem massCancel (h : Sim P N b r) : Refines P N (b.massCancel P a) (r.massCancel a) := by
  have hslots := h.slotsOf a
  unfold Book.massCancel Ref.massCancel
  obtain ⟨R, hR, -⟩ := h.labels
  cases he : b.accounts.lookup a with
  | none =>
    have hnil : r.slots a = [] := by rw [← hslots]; simp [Book.slotsOf, he]
    rw [hnil]
    exact ⟨b, rfl, h⟩
  | some e =>
    have hes : b.slotsOf a = e.slots := by simp [Book.slotsOf, he]
    rw [hes] at hslots
    have hloop := massCancelLoop a e.slots { b with massCancelScratch := e.slots } r (h.setScratch e.slots)
      (by rw [← hes]; exact (hR.dense a).nodup)
      (fun x hx => (hR.dense a).mem_iff.1 (by rw [hes]; exact hx))
    have hids : e.slots.map (Book.idAt { b with massCancelScratch := e.slots }) = r.slots a := hslots
    rw [hids] at hloop
    exact hloop

/-- **One command, by its kind.** -/
theorem dispatch (h : Sim P N b r) {c : Command} (hc : c.Checked P) (hf : Fits P N (r.dispatch P c).1)
    (hz : c = .snapshot → ∀ o ∈ r.orders, o.price ≠ 0) :
    Refines P N (Engine.dispatch P b c) (r.dispatch P c) := by
  cases c with
  | newOrder accountId orderId side price qty kind tif clientTs =>
    obtain ⟨hq, hp⟩ := hc
    cases kind with
    | market => exact h.submitMarket hq
    | limit =>
      have hp : P.debugAssertions = true → price ≠ 0 := fun hd => hp hd rfl
      cases tif with
      | gtc => exact h.submitGtc hq hp hf
      | ioc => exact h.submitIoc hq hp
      | fok => exact h.submitFok hq hp
      | postOnly => exact h.submitPostonly hq hp hf
  | cancelOrder accountId orderId => exact h.cancel
  | cancelReplace accountId orderId newPrice newQty => exact h.modify hf
  | massCancel accountId => exact h.massCancel
  | killSwitch engaged => exact ⟨b, rfl, h⟩
  | snapshot =>
    refine ⟨b, ?_, h⟩
    show (do pure (b, ← b.snapshot P)) = _
    rw [h.snapshot (hz rfl)]
    rfl

/-- A command that went through did what the reference model does. -/
theorem dispatch_of_ok (h : Sim P N b r) {c : Command} (hc : c.Checked P) (hf : Fits P N (r.dispatch P c).1) {b' : Book}
    {evs : List Event} (hd : Engine.dispatch P b c = .ok (b', evs)) :
    evs = (r.dispatch P c).2 ∧ Sim P N b' (r.dispatch P c).1 := by
  by_cases hz : c = .snapshot ∧ ∃ o ∈ r.orders, o.price = 0
  · -- a snapshot of a zero price panics
    obtain ⟨rfl, o, ho, hp⟩ := hz
    simp [Engine.dispatch, h.snapshot_zero ho hp, bind, Except.bind] at hd
  · obtain ⟨b'', hb'', hs''⟩ := h.dispatch hc hf (fun hs o ho hp => hz ⟨hs, o, ho, hp⟩)
    rw [hd, Except.ok.injEq, Prod.mk.injEq] at hb''
    exact ⟨hb''.2, hb''.1 ▸ hs''⟩

/-- **One command with its top-of-book update.** -/
theorem apply {e : Engine} (h : Sim P N e.book r) {c : Command} (hc : c.Checked P)
    (hf : Fits P N (r.apply P c).1) (hz : c = .snapshot → ∀ o ∈ r.orders, o.price ≠ 0) :
    ∃ e', e.apply P c = .ok (e', (r.apply P c).2) ∧ Sim P N e'.book (r.apply P c).1 := by
  obtain ⟨b', hb', hs'⟩ := h.dispatch hc hf hz
  refine ⟨⟨b'⟩, ?_, hs'⟩
  unfold Engine.apply Ref.apply
  simp only [hb', bind, Except.bind, pure, Except.pure, h.topOfBook, hs'.topOfBook]

/-- A snapshot of a book with a zero price panics. -/
theorem apply_zero {e : Engine} (h : Sim P N e.book r) {o : Order} (ho : o ∈ r.orders) (hp : o.price = 0) :
    e.apply P .snapshot = .error zeroPricePanic := by
  unfold Engine.apply Engine.dispatch
  simp only [h.snapshot_zero ho hp, bind, Except.bind]

/-- **A command either does what the reference model does, or is a snapshot of a book with a zero
price**, which panics. -/
theorem apply_or_panic {e : Engine} (h : Sim P N e.book r) {c : Command} (hc : c.Checked P)
    (hf : Fits P N (r.apply P c).1) :
    (∃ e', e.apply P c = .ok (e', (r.apply P c).2) ∧ Sim P N e'.book (r.apply P c).1) ∨
      (c = .snapshot ∧ (∃ o ∈ r.orders, o.price = 0) ∧ e.apply P c = .error zeroPricePanic) := by
  by_cases hz : c = .snapshot ∧ ∃ o ∈ r.orders, o.price = 0
  · right
    obtain ⟨rfl, o, ho, hp⟩ := hz
    exact ⟨rfl, ⟨o, ho, hp⟩, h.apply_zero ho hp⟩
  · left
    exact h.apply hc hf (fun hs o ho hp => hz ⟨hs, o, ho, hp⟩)

/-- A command that went through did what the reference model does. -/
theorem apply_of_ok {e e' : Engine} {evs : List Event} (h : Sim P N e.book r) {c : Command} (hc : c.Checked P)
    (hf : Fits P N (r.apply P c).1) (ha : e.apply P c = .ok (e', evs)) :
    evs = (r.apply P c).2 ∧ Sim P N e'.book (r.apply P c).1 := by
  rcases h.apply_or_panic hc hf with ⟨e'', he, hs⟩ | ⟨-, -, he⟩
  · rw [ha, Except.ok.injEq, Prod.mk.injEq] at he
    exact ⟨he.2, he.1 ▸ hs⟩
  · rw [ha] at he
    simp at he

/-- The same for a decoded command, in a build that stores every sum. -/
theorem applied {e e' : Engine} {evs : List Event} (h : Sim P ⊤ e.book r) (hP : P.Total) {c : Command}
    (hc : c.Decodable) (ha : e.apply P c = .ok (e', evs)) : evs = (r.apply P c).2 ∧ Sim P ⊤ e'.book (r.apply P c).1 :=
  h.apply_of_ok hc.checked (Fits.of_total hP _) ha

end Sim

/-- Runs keep a simulated state. -/
theorem sim_of_checked_run {P : Profile} (hP : P.Total) {cmds : List Command} (hcmds : ∀ c ∈ cmds, c.Checked P)
    {e : Engine} {evss : List (List Event)} (hrun : Engine.new.runFrom P cmds = .ok (e, evss)) :
    ∃ r, Sim P ⊤ e.book r := by
  refine run_inv (C := fun _ c => c.Checked P) (fun e : Engine => ∃ r, Sim P ⊤ e.book r) ?_ ⟨_, Sim.new P ⊤⟩
    (along_of_forall hcmds) hrun
  rintro e c e' evs ⟨r, hs⟩ hc ha
  exact ⟨_, (hs.apply_of_ok hc (Fits.of_total hP _) ha).2⟩

theorem sim_of_run {P : Profile} (hP : P.Total) {cmds : List Command} (hcmds : ∀ c ∈ cmds, c.Decodable)
    {e : Engine} {evss : List (List Event)} (hrun : Engine.new.runFrom P cmds = .ok (e, evss)) :
    ∃ r, Sim P ⊤ e.book r :=
  sim_of_checked_run hP (fun c hc => (hcmds c hc).checked) hrun

end MatchingEngine
