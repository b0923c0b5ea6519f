import MatchingEngine.Main.Refinement

/-!
# The representation invariant of the book

`Book.WellFormed` states, on the book's own fields, what `assert_invariants` checks
and what the free list adds: levels are nonempty doubly linked chains with exact
caches, every live slot is on one chain, the order index and the account arrays are
exact, the free list is the empty slots.

* `Rep.wellFormed`: a represented book satisfies it.
* `book_representation_invariant`: it holds after every run over decodable commands,
  and slot numbers stay below the null link as long as few enough orders rest at once.
-/

namespace MatchingEngine

namespace Book

def qtyAtSlot (b : Book) (slot : ℕ) : ℕ := ((b.arena.get slot).map Node.qty).getD 0

def notionalAtSlot (b : Book) (slot : ℕ) : ℕ := ((b.arena.get slot).map (fun n => n.price * n.qty)).getD 0

structure WellFormed (b : Book) : Prop where
  /-- No level is empty. -/
  nonempty : ∀ s p l, (b.map s)[p]? = some l → b.chain s p ≠ []
  nodup : ∀ s p, (b.chain s p).Nodup
  /-- Along a chain `prev` mirrors `next`; the first has no `prev`, the last no `next`. -/
  linked : ∀ s p, Linked b.arena.prev b.arena.next (b.chain s p)
  ends : ∀ s p l, (b.map s)[p]? = some l → l.head = (b.chain s p).head? ∧ l.tail = (b.chain s p).getLast?
  cached : ∀ s p l, (b.map s)[p]? = some l →
    l.count = (b.chain s p).length ∧ l.totalQty = ((b.chain s p).map b.qtyAtSlot).sum
  filed : ∀ s p, ∀ x ∈ b.chain s p, ∃ n, b.arena.get x = some n ∧ n.side = s ∧ n.price = p ∧ n.qty ≠ 0
  /-- Every live slot is on exactly one chain. -/
  once : ∀ x n, b.arena.get x = some n → ∃! sp : Side × ℕ, x ∈ b.chain sp.1 sp.2
  free : b.arena.free.Nodup ∧ ∀ x, x ∈ b.arena.free ↔ b.arena.slots[x]? = some none
  /-- The order index is a bijection between the keys of live nodes and their slots. -/
  index : ∀ k x, b.orderIndex.lookup k = some x ↔ ∃ n, b.arena.get x = some n ∧ n.key = k
  /-- Account arrays are duplicate-free, list exactly the account's slots, each where its node says,
  and the notional is their exact sum. -/
  account : ∀ a e, b.accounts.lookup a = some e → e.slots.Nodup ∧
    (∀ x, x ∈ e.slots ↔ ∃ n, b.arena.get x = some n ∧ n.account = a) ∧
    (∀ j x n, e.slots[j]? = some x → b.arena.get x = some n → n.acctIdx = j) ∧
    e.notional = (e.slots.map b.notionalAtSlot).sum
  entry : ∀ x n, b.arena.get x = some n → (b.accounts.lookup n.account).isSome

end Book

section

variable {debug : Bool} {b : Book} {R : Side → List Slotted}

theorem exact64 {n v : ℕ} (h : (Profile.exact debug).u64.val (n : ℕ) = some v) : v = n :=
  (Option.some.inj ((Word.exact_val n).symm.trans h)).symm

theorem exact128 {n v : ℕ} (h : (Profile.exact debug).u128.val (n : ℕ) = some v) : v = n :=
  (Option.some.inj ((Word.exact_val n).symm.trans h)).symm

/-- The account's exact notional, summed over its slot array. -/
theorem Rep.notional_slots {P : Profile} (h : Rep P b R) {a : ℕ} {e : AccountEntry}
    (he : b.accounts.lookup a = some e) :
    notionalIn (plain (R .buy ++ R .sell)) a = (e.slots.map b.notionalAtSlot).sum := by
  have hes : b.slotsOf a = e.slots := by simp [Book.slotsOf, he]
  have hd := h.dense a
  rw [hes] at hd
  -- the account's slots are those of its labelled orders
  have hperm : (((R .buy ++ R .sell).filter (fun f => f.2.account = a)).map Prod.fst).Perm e.slots := by
    rw [List.perm_ext_iff_of_nodup (h.slots_nodup.sublist (List.filter_sublist.map _)) hd.nodup]
    intro x
    rw [hd.mem_iff, List.mem_map]
    constructor
    · rintro ⟨f, hf, rfl⟩
      obtain ⟨hf, hfa⟩ := List.mem_filter.1 hf
      obtain ⟨s, hf⟩ := mem_sides.1 hf
      obtain ⟨n, hn, -, hno⟩ := (h.live s f.1 f.2).1 hf
      refine ⟨n, hn, ?_⟩
      have : f.2.account = a := by simpa using hfa
      rw [← this, ← hno]
      rfl
    · rintro ⟨n, hn, ha⟩
      exact ⟨(x, n.order), List.mem_filter.2 ⟨mem_sides.2 ⟨_, h.mem hn⟩, decide_eq_true ha⟩, rfl⟩
  rw [← (hperm.map b.notionalAtSlot).sum_eq, List.map_map]
  unfold notionalIn plain
  rw [List.filter_map, List.map_map]
  congr 1
  apply List.map_congr_left
  intro f hf
  obtain ⟨s, hf⟩ := mem_sides.1 (List.mem_filter.1 hf).1
  obtain ⟨n, hn, -, hno⟩ := (h.live s f.1 f.2).1 hf
  simp [Book.notionalAtSlot, hn, ← hno, Node.order]

/-- **A represented book is well formed.** -/
theorem Rep.wellFormed (h : Rep (.exact debug) b R) : b.WellFormed := by
  have hlevel : ∀ {s p l}, (b.map s)[p]? = some l → LevelOK (.exact debug) (some l) (levelOf (R s) p) := by
    intro s p l hl
    rw [← hl]
    exact h.level s p
  refine ⟨?_, ?_, ?_, ?_, ?_, ?_, ?_, ⟨h.free.nodup, h.free.mem_iff⟩, h.index, ?_, ?_⟩
  · intro s p l hl
    rw [h.chain_eq]
    unfold chainOf
    simpa using (hlevel hl).1
  · intro s p
    rw [h.chain_eq]
    exact levelOf_nodup (h.nodup s) p
  · intro s p
    rw [h.chain_eq]
    exact h.linked s p
  · intro s p l hl
    rw [h.chain_eq]
    exact ⟨(hlevel hl).2.1, (hlevel hl).2.2.1⟩
  · intro s p l hl
    obtain ⟨-, -, -, hcount, htotal⟩ := hlevel hl
    rw [h.chain_eq]
    unfold chainOf
    rw [List.length_map, List.map_map]
    refine ⟨hcount, ?_⟩
    rw [exact64 htotal]
    congr 1
    apply List.map_congr_left
    rintro ⟨x, o⟩ he
    obtain ⟨n, hn, -, hno⟩ := (h.live s x o).1 (mem_levelOf.1 he).1
    simp [Book.qtyAtSlot, hn, ← hno, Node.order]
  · intro s p x hx
    rw [h.chain_eq] at hx
    obtain ⟨⟨y, o⟩, he, rfl⟩ := List.mem_map.1 hx
    obtain ⟨hm, hp⟩ := mem_levelOf.1 he
    obtain ⟨n, hn, hns, hno⟩ := (h.live s y o).1 hm
    have hq := h.pos s _ hm
    rw [← hno] at hp hq
    exact ⟨n, hn, hns, hp, hq.ne'⟩
  · intro x n hn
    refine ⟨(n.side, n.price), ?_, ?_⟩
    · show x ∈ b.chain n.side n.price
      rw [h.chain_eq]
      exact List.mem_map.2 ⟨(x, n.order), mem_levelOf.2 ⟨h.mem hn, rfl⟩, rfl⟩
    · rintro ⟨s, p⟩ hx
      have hx' : x ∈ b.chain s p := hx
      rw [h.chain_eq] at hx'
      obtain ⟨m, hm, hms, hmp⟩ := h.chain_live hx'
      obtain rfl : n = m := Option.some.inj (hn.symm.trans hm)
      rw [hms, hmp]
  · intro a e he
    have hes : b.slotsOf a = e.slots := by simp [Book.slotsOf, he]
    have hd := h.dense a
    rw [hes] at hd
    refine ⟨hd.nodup, fun x => hd.mem_iff, ?_, ?_⟩
    · intro j x n hj hn
      have := ((hd j x).1 hj).2
      simpa [Book.acctIdx, hn] using this
    · rw [exact128 (h.notional a e he), h.notional_slots he]
  · intro x n hn
    obtain ⟨e, he, -⟩ := h.entry_some hn
    simp [he]

end

/-- With at most `N` orders resting after each command, at most `N` slots are ever used. -/
theorem sim_of_run_bounded {P : Profile} (hP : P.Total) {N : ℕ} {cmds : List Command}
    (hcmds : ∀ c ∈ cmds, c.Decodable)
    (hfew : ∀ n e evss, Engine.new.runFrom P (cmds.take n) = .ok (e, evss) → e.book.arena.len ≤ N) :
    ∀ n e evss, Engine.new.runFrom P (cmds.take n) = .ok (e, evss) → ∃ r, Sim P N e.book r := by
  intro n
  -- on the length of the run: the bound after each command keeps the next one within the slots
  induction n with
  | zero =>
    intro e evss hrun
    obtain ⟨rfl, -⟩ : Engine.new = e ∧ [] = evss := by simpa [Engine.runFrom] using hrun
    exact ⟨_, Sim.new P N⟩
  | succ n ih =>
    intro e evss hrun
    by_cases hn : n < cmds.length
    · have hrun' := hrun
      rw [List.take_add_one, List.getElem?_eq_getElem hn] at hrun
      obtain ⟨e₁, evss₁, evss₂, h1, h2, -⟩ := run_append_inv hrun
      obtain ⟨e₂, evs, os, ha, h3, -⟩ := run_cons_inv h2
      obtain ⟨rfl, -⟩ : e₂ = e ∧ [] = os := by simpa using h3
      obtain ⟨r, hs⟩ := ih e₁ evss₁ h1
      have hc := hcmds _ (List.getElem_mem hn)
      have htop : Sim P ⊤ e₁.book r := ⟨hs.rep, hs.abs, le_top⟩
      have hlen := (htop.applied hP hc ha).2.len
      have hfits : Fits P N (r.apply P cmds[n]).1 := by
        refine ⟨(Fits.of_total hP _).u64, (Fits.of_total hP _).u128, ?_⟩
        rw [← hlen]
        exact_mod_cast hfew (n + 1) _ evss hrun'
      exact ⟨_, (hs.apply_of_ok hc.checked hfits ha).2⟩
    · rw [List.take_of_length_le (by omega)] at hrun
      exact ih e evss (by rw [List.take_of_length_le (by omega)]; exact hrun)

/-- **The representation invariant holds after every run.** The slots used stay below the null link,
and the one panic a run can end in is a snapshot of a book that holds a zero price, which only a
cancel-replace can have brought. -/
theorem book_representation_invariant (debug : Bool) {cmds : List Command} (hcmds : ∀ c ∈ cmds, c.Decodable)
    (hfew : ∀ n e evss, Engine.new.runFrom (.exact debug) (cmds.take n) = .ok (e, evss) →
      e.book.arena.len < 2 ^ 32 - 1) :
    (∀ e evss, Engine.new.runFrom (.exact debug) cmds = .ok (e, evss) →
      e.book.WellFormed ∧ e.book.arena.slots.length < 2 ^ 32 - 1) ∧
    ∀ err, Engine.new.runFrom (.exact debug) cmds = .error err → err = Sim.zeroPricePanic ∧
      ∃ pre post e evss, cmds = pre ++ .snapshot :: post ∧ Engine.new.runFrom (.exact debug) pre = .ok (e, evss) ∧
        ∃ x n, e.book.arena.get x = some n ∧ n.price = 0 := by
  have hP := Profile.exact_total debug
  constructor
  · intro e evss hrun
    obtain ⟨r, hs⟩ := sim_of_run_bounded hP (N := 2 ^ 32 - 2) hcmds
      (fun n e evss h => by have := hfew n e evss h; omega) cmds.length e evss (by rw [List.take_length]; exact hrun)
    obtain ⟨R, hR⟩ := hs.rep
    have hslots : e.book.arena.slots.length ≤ 2 ^ 32 - 2 := by exact_mod_cast hs.slots
    exact ⟨hR.wellFormed, by omega⟩
  · intro err hrun
    obtain ⟨pre, c, post, e, evss, rfl, hpre, herr⟩ := run_error_inv hrun
    obtain ⟨r, hs⟩ := sim_of_run hP (fun c hc => hcmds c (List.mem_append_left _ hc)) hpre
    have hc := hcmds c (by simp)
    rcases hs.apply_or_panic hc.checked (Fits.of_total hP _) with ⟨e', he', -⟩ | ⟨rfl, ⟨o, ho, hz⟩, hpanic⟩
    · rw [he'] at herr
      simp at herr
    · obtain ⟨s, ho⟩ := (r.mem_orders o).1 ho
      obtain ⟨x, n, hn, -, hno⟩ := hs.order_node ho
      refine ⟨?_, pre, post, e, evss, rfl, hpre, x, n, hn, ?_⟩
      · rw [hpanic] at herr
        exact (Except.error.inj herr).symm
      · rw [← hno] at hz
        exact hz

/-- Two orders in one level, the first filled in part. -/
theorem book_representation_invariant_level :
    ∃ e evss, Engine.new.runFrom (.exact true)
        [.newOrder 1 1 .sell 100 5 .limit .gtc 0, .newOrder 2 1 .sell 100 4 .limit .gtc 0,
         .newOrder 3 1 .buy 100 2 .limit .ioc 0] = .ok (e, evss) ∧ e.book.WellFormed := by
  let cmds : List Command := [.newOrder 1 1 .sell 100 5 .limit .gtc 0, .newOrder 2 1 .sell 100 4 .limit .gtc 0,
    .newOrder 3 1 .buy 100 2 .limit .ioc 0]
  have hrun : ∀ n, ∃ e, Engine.new.runFrom (.exact true) (cmds.take n) =
      .ok (e, (Ref.new.runFrom (.exact true) (cmds.take n)).2) ∧
      Sim (.exact true) ⊤ e.book (Ref.new.runFrom (.exact true) (cmds.take n)).1 := fun n =>
    (Sim.new _ ⊤).run (e := Engine.new) (Profile.exact_total true) (by simp [Ref.NoZero, Ref.new, Ref.orders])
      (fun c hc => (by decide : ∀ c ∈ cmds, c.Nonzero) c (List.mem_of_mem_take hc))
  have hfew : ∀ n e evss, Engine.new.runFrom (.exact true) (cmds.take n) = .ok (e, evss) →
      e.book.arena.len < 2 ^ 32 - 1 := by
    intro n e evss h
    obtain ⟨e', he', hs⟩ := hrun n
    rw [h, Except.ok.injEq, Prod.mk.injEq] at he'
    rw [he'.1, hs.len]
    rcases n with _ | _ | _ | n
    · decide
    · decide
    · decide
    · have : cmds.take (n + 3) = cmds := List.take_of_length_le (by simp [cmds])
      rw [this]
      decide
  obtain ⟨e, he, -⟩ := hrun 3
  have hinv := book_representation_invariant true (show ∀ c ∈ cmds, c.Decodable by decide) hfew
  exact ⟨e, _, he, (hinv.1 e _ he).1⟩

end MatchingEngine
