import MatchingEngine.Lib.Run
import MatchingEngine.Proof.Abs

/-!
# What the checker sees

`walk_level` and `assert_invariants` on any memory, reachable or not: links may run in
cycles, share tails or dangle, caches and indexes may be wrong.

* `Walk`: the states the loop of `walk_level` passes through.
* `walkLevel_halts`: it visits no slot twice, so it stops, whatever the links are.
* `Book.Audited`: what a passed check has established about levels and slot counts.
* `audit_adequate_iff`: a passed check shows that every live slot is filed and the free
  list exact if and only if the free list holds empty slots only, each once. The check
  compares lengths and never reads the free list.
-/

namespace MatchingEngine

section Walk

variable {P : Profile} {arena : Arena} {side : Side} {price : ℕ} {head : Option ℕ}

/-- The states `(slots, total, prev_slot, cursor)` of the loop of `walk_level`, started at `head`. -/
inductive Walk (P : Profile) (arena : Arena) (side : Side) (price : ℕ) (head : Option ℕ) :
    List ℕ → ℕ → Option ℕ → Option ℕ → Prop
  | start : Walk P arena side price head [] 0 none head
  | turn {slots : List ℕ} {total total' cursor : ℕ} {prevSlot : Option ℕ} {node : Node} :
      Walk P arena side price head slots total prevSlot (some cursor) →
      arena.get cursor = some node → node.prev = prevSlot → node.price = price → node.side = side →
      node.qty ≠ 0 → node.price ≠ 0 → P.store64 ((total : ℤ) + node.qty) = .ok total' →
      Walk P arena side price head (slots ++ [cursor]) total' (some cursor) node.next

namespace Walk

variable {slots : List ℕ} {total : ℕ} {prevSlot cursor : Option ℕ}

theorem prev_eq (h : Walk P arena side price head slots total prevSlot cursor) : prevSlot = slots.getLast? := by
  cases h with
  | start => rfl
  | turn => simp

theorem backLinked (h : Walk P arena side price head slots total prevSlot cursor) : BackLinked arena.prev slots := by
  induction h with
  | start => exact backLinked_nil
  | turn h hget hprev _ _ _ _ _ ih =>
    refine ih.push ?_
    rw [Arena.prev, hget, Option.bind_some, hprev, h.prev_eq]

theorem nodup (h : Walk P arena side price head slots total prevSlot cursor) : slots.Nodup := h.backLinked.nodup

theorem live (h : Walk P arena side price head slots total prevSlot cursor) :
    ∀ x ∈ slots, ∃ n, arena.get x = some n := by
  induction h with
  | start => simp
  | turn _ hget _ _ _ _ _ _ ih =>
    intro x hx
    rcases List.mem_append.1 hx with hx | hx
    · exact ih x hx
    · obtain rfl := List.mem_singleton.1 hx
      exact ⟨_, hget⟩

/-- No more slots are visited than there are. -/
theorem length_le (h : Walk P arena side price head slots total prevSlot cursor) :
    slots.length ≤ arena.slots.length := by
  have hsub : slots ⊆ List.range arena.slots.length := by
    intro x hx
    obtain ⟨n, hn⟩ := h.live x hx
    exact List.mem_range.2 (Arena.get_lt hn)
  simpa using (h.nodup.subperm hsub).length_le

/-- What was visited, and the cursor after it, is what `next` leads to from the head. -/
theorem forward (h : Walk P arena side price head slots total prevSlot cursor) :
    (slots ++ cursor.toList).head? = head ∧
      ∀ pre x post, slots = pre ++ x :: post → arena.next x = (post ++ cursor.toList).head? := by
  induction h with
  | start =>
    refine ⟨by cases head <;> rfl, ?_⟩
    intro pre x post he
    simp at he
  | @turn slots _ _ cursor _ node _ hget _ _ _ _ _ _ ih =>
    have happ : slots ++ (some cursor).toList = slots ++ [cursor] := rfl
    rw [happ] at ih
    refine ⟨by rw [List.head?_append, ih.1.symm]; simp, ?_⟩
    intro pre x post he
    rcases split_snoc he with ⟨rfl, rfl, rfl⟩ | ⟨m, rfl, hs⟩
    · rw [Arena.next, hget, Option.bind_some]
      cases node.next <;> rfl
    · rw [ih.2 pre x m hs, List.append_assoc]
      cases m <;> rfl

/-- A finished walk is the chain threaded from the head. -/
theorem linked (h : Walk P arena side price head slots total prevSlot none) :
    slots.head? = head ∧ Linked arena.prev arena.next slots := by
  obtain ⟨hhead, hnext⟩ := h.forward
  rw [Option.toList_none, List.append_nil] at hhead
  refine ⟨hhead, fun pre x post he => ⟨h.backLinked pre x post he, ?_⟩⟩
  rw [hnext pre x post he, Option.toList_none, List.append_nil]

end Walk

/-- A stop at one of the assertions of `walk_level`, or at the overflow of its running total where
the build checks for it. -/
def Panic.Asserted (P : Profile) (e : Panic) : Prop :=
  (∃ msg, e = .assertion msg ∨ e = .expect msg) ∨ e = .overflow ∧ ¬ P.u64.Total

theorem check_cases (c : Prop) [Decidable c] (msg : String) :
    check c msg = .error (.assertion msg) ∨ c ∧ check c msg = .ok () := by
  unfold check
  by_cases h : c
  · exact .inr ⟨h, if_pos h⟩
  · exact .inl (if_neg h)

/-- **One turn of the loop**: on to the next state, or a failed assertion. -/
theorem walkLoop_turn {slots : List ℕ} {total cursor : ℕ} {prevSlot : Option ℕ}
    (h : Walk P arena side price head slots total prevSlot (some cursor)) :
    (∃ total' next, Walk P arena side price head (slots ++ [cursor]) total' (some cursor) next ∧
      ∀ fuel, Book.walkLoop P arena side price (fuel + 1) slots total prevSlot (some cursor) =
        Book.walkLoop P arena side price fuel (slots ++ [cursor]) total' (some cursor) next) ∨
    ∃ e : Panic, e.Asserted P ∧
      ∀ fuel, Book.walkLoop P arena side price (fuel + 1) slots total prevSlot (some cursor) = .error e := by
  cases hget : arena.get cursor with
  | none =>
    refine .inr ⟨.expect "level chain points to freed slot", .inl ⟨_, .inr rfl⟩, fun fuel => ?_⟩
    simp only [Book.walkLoop, hget, expect, bind, Except.bind]
  | some node =>
    -- the assertions in the order of the source
    have hloop : ∀ fuel, Book.walkLoop P arena side price (fuel + 1) slots total prevSlot (some cursor) =
        (check (node.prev = prevSlot) "back-link mismatch in level").bind fun _ =>
        (check (node.price = price) "node filed under wrong price").bind fun _ =>
        (check (node.side = side) "node filed on wrong side").bind fun _ =>
        (check (node.qty ≠ 0) "resting node has zero quantity").bind fun _ =>
        (check (node.price ≠ 0) "resting node has zero price").bind fun _ =>
        (P.store64 ((total : ℤ) + node.qty)).bind fun total' =>
        Book.walkLoop P arena side price fuel (slots ++ [cursor]) total' (some cursor) node.next := by
      intro fuel
      simp only [Book.walkLoop, hget, expect, bind, Except.bind]
    have hfail : ∀ msg, (Panic.assertion msg).Asserted P := fun msg => .inl ⟨msg, .inl rfl⟩
    rcases check_cases (node.prev = prevSlot) "back-link mismatch in level" with c1 | ⟨h1, c1⟩
    · exact .inr ⟨_, hfail _, fun fuel => by rw [hloop, c1]; rfl⟩
    rcases check_cases (node.price = price) "node filed under wrong price" with c2 | ⟨h2, c2⟩
    · exact .inr ⟨_, hfail _, fun fuel => by rw [hloop, c1, c2]; rfl⟩
    rcases check_cases (node.side = side) "node filed on wrong side" with c3 | ⟨h3, c3⟩
    · exact .inr ⟨_, hfail _, fun fuel => by rw [hloop, c1, c2, c3]; rfl⟩
    rcases check_cases (node.qty ≠ 0) "resting node has zero quantity" with c4 | ⟨h4, c4⟩
    · exact .inr ⟨_, hfail _, fun fuel => by rw [hloop, c1, c2, c3, c4]; rfl⟩
    rcases check_cases (node.price ≠ 0) "resting node has zero price" with c5 | ⟨h5, c5⟩
    · exact .inr ⟨_, hfail _, fun fuel => by rw [hloop, c1, c2, c3, c4, c5]; rfl⟩
    cases hsum : P.u64.val ((total : ℤ) + node.qty) with
    | none =>
      have hover : P.store64 ((total : ℤ) + node.qty) = .error .overflow := by simp [Profile.store64, hsum]
      refine .inr ⟨.overflow, .inr ⟨rfl, fun htotal => ?_⟩, fun fuel => by
        rw [hloop, c1, c2, c3, c4, c5, hover]; rfl⟩
      have := htotal ((total : ℤ) + node.qty) (by positivity)
      rw [hsum] at this
      simp at this
    | some total' =>
      have hok : P.store64 ((total : ℤ) + node.qty) = .ok total' := Profile.store64_ok hsum
      exact .inl ⟨total', node.next, h.turn hget h1 h2 h3 h4 h5 hok, fun fuel => by
        rw [hloop, c1, c2, c3, c4, c5, hok]; rfl⟩

/-- What the loop has found when it ends in a value. -/
def Ended (P : Profile) (arena : Arena) (side : Side) (price : ℕ) (head : Option ℕ) :
    Except Panic (List ℕ × ℕ × Option ℕ) → Prop
  | .ok (slots, total, prevSlot) => Walk P arena side price head slots total prevSlot none
  | .error e => e.Asserted P

/-- **The loop stops**, after at most one turn more than there are slots: with enough fuel it ends
in a finished walk or a failed assertion, and the fuel does not matter. -/
theorem walkLoop_ends : ∀ (fuel : ℕ) {slots : List ℕ} {total : ℕ} {prevSlot cursor : Option ℕ},
    Walk P arena side price head slots total prevSlot cursor → arena.slots.length < slots.length + fuel →
    ∃ r, Ended P arena side price head r ∧
      ∀ extra, Book.walkLoop P arena side price (fuel + extra) slots total prevSlot cursor = r := by
  intro fuel
  induction fuel with
  | zero =>
    intro slots total prevSlot cursor h hlen
    have := h.length_le
    omega
  | succ fuel ih =>
    intro slots total prevSlot cursor h hlen
    cases cursor with
    | none =>
      refine ⟨.ok (slots, total, prevSlot), h, fun extra => ?_⟩
      cases fuel + 1 + extra <;> rfl
    | some cursor =>
      have hfuel : ∀ extra, fuel + 1 + extra = fuel + extra + 1 := fun extra => by omega
      rcases walkLoop_turn h with ⟨total', next, hturn, hloop⟩ | ⟨e, he, hloop⟩
      · obtain ⟨r, hr, hrest⟩ := ih hturn (by rw [List.length_append, List.length_singleton]; omega)
        exact ⟨r, hr, fun extra => by rw [hfuel, hloop, hrest]⟩
      · exact ⟨.error e, he, fun extra => by rw [hfuel, hloop]⟩

theorem walkLoop_ends_start (P : Profile) (arena : Arena) (side : Side) (price : ℕ) (head : Option ℕ) :
    ∃ r, Ended P arena side price head r ∧
      ∀ extra, Book.walkLoop P arena side price (arena.slots.length + 1 + extra) [] 0 none head = r :=
  walkLoop_ends _ .start (by rw [List.length_nil]; omega)

end Walk

/-- How `walk_level` ends: its loop ends, and then three more assertions pass or fail. -/
theorem walkLevel_ends (P : Profile) (b : Book) (side : Side) (price : ℕ) (level : Level) :
    (∃ e : Panic, b.walkLevel P side price level = .error e ∧ e.Asserted P) ∨
      ∃ slots total prevSlot, b.walkLevel P side price level = .ok slots ∧
        Walk P b.arena side price level.head slots total prevSlot none := by
  have hfail : ∀ msg, (Panic.assertion msg).Asserted P := fun msg => .inl ⟨msg, .inl rfl⟩
  obtain ⟨r, hr, hloop⟩ := walkLoop_ends_start P b.arena side price level.head
  unfold Book.walkLevel
  rw [show b.arena.slots.length + 1 = b.arena.slots.length + 1 + 0 from rfl, hloop 0]
  cases r with
  | error e => exact .inl ⟨e, rfl, hr⟩
  | ok v =>
    obtain ⟨slots, total, prevSlot⟩ := v
    simp only [bind, Except.bind]
    rcases check_cases (prevSlot = level.tail) "level did not walk to its cached tail" with c1 | ⟨-, c1⟩
    · exact .inl ⟨_, by rw [c1], hfail _⟩
    rcases check_cases (slots.length = level.count) "level count mismatch" with c2 | ⟨-, c2⟩
    · exact .inl ⟨_, by rw [c1, c2], hfail _⟩
    rcases check_cases (total = level.totalQty) "level total_qty mismatch" with c3 | ⟨-, c3⟩
    · exact .inl ⟨_, by rw [c1, c2, c3], hfail _⟩
    exact .inr ⟨slots, total, prevSlot, by rw [c1, c2, c3]; rfl, hr⟩

/-- **`walk_level` halts on any memory.** Whatever the arena holds, the loop passes through states
that have visited distinct slots only, so it is over after one turn more than there are slots, and
`walk_level` fails an assertion or returns distinct slots. -/
theorem walk_level_halts (P : Profile) (b : Book) (side : Side) (price : ℕ) (level : Level) :
    (∀ slots total prevSlot cursor, Walk P b.arena side price level.head slots total prevSlot cursor →
      slots.Nodup ∧ slots.length ≤ b.arena.slots.length) ∧
    (∀ extra, Book.walkLoop P b.arena side price (b.arena.slots.length + 1 + extra) [] 0 none level.head =
      Book.walkLoop P b.arena side price (b.arena.slots.length + 1) [] 0 none level.head) ∧
    ((∃ e : Panic, b.walkLevel P side price level = .error e ∧ e.Asserted P) ∨
      ∃ slots, b.walkLevel P side price level = .ok slots ∧ slots.Nodup) := by
  refine ⟨fun slots total prevSlot cursor h => ⟨h.nodup, h.length_le⟩, fun extra => ?_, ?_⟩
  · obtain ⟨r, -, hloop⟩ := walkLoop_ends_start P b.arena side price level.head
    rw [hloop extra]
    exact (hloop 0).symm
  · rcases walkLevel_ends P b side price level with h | ⟨slots, total, prevSlot, hok, hw⟩
    · exact .inl h
    · exact .inr ⟨slots, hok, hw.nodup⟩

theorem check_ok {c : Prop} [Decidable c] {msg : String} {u : Unit} (h : check c msg = .ok u) : c := by
  rcases check_cases c msg with hc | ⟨hc, -⟩
  · rw [hc] at h
    cases h
  · exact hc

namespace Book

variable {P : Profile} {b : Book} {side : Side} {ls : List (ℕ × Level)} {found found' : Finset ℕ}

/-- The slots that `next` leads to from a level's head. -/
def levelSlots (b : Book) (level : Level) : List ℕ := followFrom b.arena.next b.arena.slots.length level.head

/-- A walked level returns its chain, all of it live. -/
theorem walkLevel_ok {price : ℕ} {level : Level} {slots : List ℕ} (h : b.walkLevel P side price level = .ok slots) :
    slots = b.levelSlots level ∧ slots.Nodup ∧ ∀ x ∈ slots, ∃ n, b.arena.get x = some n := by
  rcases walkLevel_ends P b side price level with ⟨e, he, -⟩ | ⟨slots', total, prevSlot, hok, hw⟩
  · rw [he] at h
    cases h
  · obtain rfl : slots' = slots := Except.ok.inj (hok.symm.trans h)
    obtain ⟨hhead, hlinked⟩ := hw.linked
    refine ⟨?_, hw.nodup, hw.live⟩
    unfold levelSlots
    rw [← hhead, hlinked.follow hw.length_le]

theorem insertFound_ok {slots : List ℕ} (h : insertFound slots found = .ok found') :
    found' = found ∪ slots.toFinset ∧ ∀ x ∈ slots, x ∉ found := by
  induction slots generalizing found with
  | nil =>
    obtain rfl : found = found' := Except.ok.inj h
    simp
  | cons x slots ih =>
    obtain ⟨u, hx, h⟩ := exists_of_bind_ok h
    have hx := check_ok hx
    obtain ⟨rfl, hnew⟩ := ih h
    refine ⟨by ext y; simp, ?_⟩
    intro y hy
    rcases List.mem_cons.1 hy with rfl | hy
    · exact hx
    · intro hf
      exact hnew y hy (Finset.mem_insert_of_mem hf)

/-- **The levels of a side, walked**: their chains are disjoint, live, and all that was added. -/
theorem foundInLevels_ok (h : foundInLevels P b side ls found = .ok found') :
    found' = found ∪ (ls.flatMap (fun e => b.levelSlots e.2)).toFinset ∧
      (ls.flatMap (fun e => b.levelSlots e.2)).Nodup ∧
      ∀ x ∈ ls.flatMap (fun e => b.levelSlots e.2), x ∉ found ∧ ∃ n, b.arena.get x = some n := by
  induction ls generalizing found with
  | nil =>
    obtain rfl : found = found' := Except.ok.inj h
    simp
  | cons e ls ih =>
    obtain ⟨slots, hwalk, h⟩ := exists_of_bind_ok h
    obtain ⟨mid, hmid, h⟩ := exists_of_bind_ok h
    obtain ⟨rfl, hnd, hlive⟩ := walkLevel_ok hwalk
    obtain ⟨rfl, hnew⟩ := insertFound_ok hmid
    obtain ⟨rfl, hnd', hrest⟩ := ih h
    simp only [List.flatMap_cons]
    refine ⟨by rw [List.toFinset_append, Finset.union_assoc], ?_, ?_⟩
    · refine List.nodup_append.2 ⟨hnd, hnd', ?_⟩
      rintro x hx y hy rfl
      exact (hrest x hy).1 (Finset.mem_union_right _ (List.mem_toFinset.2 hx))
    · intro x hx
      rcases List.mem_append.1 hx with hx | hx
      · exact ⟨hnew x hx, hlive x hx⟩
      · exact ⟨fun hf => (hrest x hx).1 (Finset.mem_union_left _ hf), (hrest x hx).2⟩

/-- The levels of both sides, bids first. -/
def levels (b : Book) : List (Side × ℕ × Level) :=
  b.bids.toList.map (fun e => (.buy, e)) ++ b.asks.toList.map (fun e => (.sell, e))

theorem mem_levels {s : Side} {p : ℕ} {l : Level} : (s, p, l) ∈ b.levels ↔ (b.map s)[p]? = some l := by
  unfold levels
  cases s with
  | buy => simp [map, Std.ExtTreeMap.mem_toList_iff_getElem?_eq_some]
  | sell => simp [map, Std.ExtTreeMap.mem_toList_iff_getElem?_eq_some]

theorem mem_chain {s : Side} {p x : ℕ} : x ∈ b.chain s p ↔ ∃ l, (s, p, l) ∈ b.levels ∧ x ∈ b.levelSlots l := by
  simp only [mem_levels]
  unfold chain levelHead levelSlots
  cases hl : (b.map s)[p]? with
  | none => cases b.arena.slots.length <;> simp [followFrom]
  | some l => simp

/-- **What a passed check has found**: chains that share no slot, and as many slots on them as the
lengths of the two vectors differ by. -/
theorem assertInvariants_found (h : b.assertInvariants P = .ok ()) :
    ∃ found : Finset ℕ, b.arena.lenChecked P = .ok found.card ∧
      (∀ x ∈ found, ∃ n, b.arena.get x = some n) ∧
      ∀ x ∈ found, ∃! sp : Side × ℕ, x ∈ b.chain sp.1 sp.2 := by
  unfold assertInvariants at h
  obtain ⟨_, -, h⟩ := exists_of_bind_ok h
  obtain ⟨_, -, h⟩ := exists_of_bind_ok h
  obtain ⟨bidSlots, hbids, h⟩ := exists_of_bind_ok h
  obtain ⟨found, hasks, h⟩ := exists_of_bind_ok h
  obtain ⟨len, hlen, h⟩ := exists_of_bind_ok h
  obtain ⟨_, hcard, -⟩ := exists_of_bind_ok h
  have hcard := check_ok hcard
  subst hcard
  obtain ⟨rfl, hndb, hb⟩ := foundInLevels_ok hbids
  obtain ⟨rfl, hnda, ha⟩ := foundInLevels_ok hasks
  have hflat : b.levels.flatMap (fun e => b.levelSlots e.2.2) =
      b.bids.toList.flatMap (fun e => b.levelSlots e.2) ++ b.asks.toList.flatMap (fun e => b.levelSlots e.2) := by
    simp [levels, List.flatMap_map]
  have hnd : (b.levels.flatMap (fun e => b.levelSlots e.2.2)).Nodup := by
    rw [hflat]
    refine List.nodup_append.2 ⟨hndb, hnda, ?_⟩
    rintro x hx y hy rfl
    exact (ha x hy).1 (by simpa using hx)
  refine ⟨_, hlen, ?_, ?_⟩
  · intro x hx
    rcases Finset.mem_union.1 hx with hx | hx
    · exact (hb x (by simpa using hx)).2
    · exact (ha x (List.mem_toFinset.1 hx)).2
  · intro x hx
    obtain ⟨⟨s, p, l⟩, hl, hxl⟩ : ∃ e ∈ b.levels, x ∈ b.levelSlots e.2.2 := by
      rw [← List.mem_flatMap, hflat]
      simpa using hx
    refine ⟨(s, p), mem_chain.2 ⟨l, hl, hxl⟩, ?_⟩
    -- a second chain through `x` would not be disjoint from the first
    rintro ⟨s', p'⟩ hx'
    obtain ⟨l', hl', hxl'⟩ := mem_chain.1 hx'
    have hdisj := (List.nodup_flatMap.1 hnd).2
    by_contra hne
    have hne' : (s', p', l') ≠ (s, p, l) := fun he => hne (by simp_all)
    have : Std.Symm (Function.onFun List.Disjoint fun e : Side × ℕ × Level => b.levelSlots e.2.2) :=
      ⟨fun _ _ h => List.Disjoint.symm h⟩
    exact hdisj.forall hl' hl hne' hxl' hxl

end Book

namespace Arena

variable {a : Arena} {found : Finset ℕ}

/-- The free list holds empty slots only, each once. It may miss some. -/
structure FreeSound (a : Arena) : Prop where
  nodup : a.free.Nodup
  empty : ∀ slot ∈ a.free, a.slots[slot]? = some none

/-- **Counting.** Live slots found, as many as the lengths differ by, are all of them when the free
list holds empty slots only, each once; and then it holds every empty slot. -/
theorem FreeSound.exact (h : a.FreeSound) (hlive : ∀ x ∈ found, ∃ n, a.get x = some n)
    (hcard : found.card = a.len) : found = a.liveSlots ∧ a.FreeOK := by
  have hsub : found ⊆ a.liveSlots := fun x hx => mem_liveSlots.2 (hlive x hx)
  have hfree : a.free.toFinset ⊆ a.emptySlots := fun x hx =>
    mem_emptySlots.2 (h.empty x (List.mem_toFinset.1 hx))
  have hsize : a.free.toFinset.card = a.free.length := List.toFinset_card_of_nodup h.nodup
  have hle := Finset.card_le_card hfree
  have htotal := a.card_slots
  unfold len at hcard
  have hfound : found = a.liveSlots := Finset.eq_of_subset_of_card_le hsub (by omega)
  have hall : a.free.toFinset = a.emptySlots := by
    refine Finset.eq_of_subset_of_card_le hfree ?_
    rw [← hfound] at htotal
    omega
  refine ⟨hfound, h.nodup, fun x => ?_⟩
  rw [← mem_emptySlots, ← hall, List.mem_toFinset]

/-- A free list with empty slots only is no longer than the arena. -/
theorem FreeSound.length_le (h : a.FreeSound) : a.free.length ≤ a.slots.length := by
  have hfree : a.free.toFinset ⊆ a.emptySlots := fun x hx =>
    mem_emptySlots.2 (h.empty x (List.mem_toFinset.1 hx))
  have hle := Finset.card_le_card hfree
  rw [List.toFinset_card_of_nodup h.nodup] at hle
  have := a.card_slots
  omega

end Arena

/-- What a passed check is meant to show of the arena: every live slot on exactly one chain, the
free list exactly the empty slots, and so the next insertion on no resting order. -/
structure Book.Adequate (b : Book) : Prop where
  filed : ∀ x n, b.arena.get x = some n → ∃! sp : Side × ℕ, x ∈ b.chain sp.1 sp.2
  free : b.arena.free.Nodup ∧ ∀ x, x ∈ b.arena.free ↔ b.arena.slots[x]? = some none
  fresh : ∀ node, ∃ arena slot, b.arena.insert node = .ok (arena, slot) ∧ b.arena.get slot = none

/-- **What the checker shows.** A book that passes `assert_invariants` is as it should be exactly
when its free list holds empty slots only, each once. -/
theorem audit_adequate_iff (P : Profile) (b : Book) (h : b.assertInvariants P = .ok ()) :
    b.Adequate ↔ b.arena.FreeSound := by
  constructor
  · intro ha
    exact ⟨ha.free.1, fun x hx => (ha.free.2 x).1 hx⟩
  · intro hs
    obtain ⟨found, hlen, hlive, honce⟩ := Book.assertInvariants_found h
    have hcard : found.card = b.arena.len := by
      unfold Arena.lenChecked at hlen
      rw [if_pos hs.length_le] at hlen
      exact (Except.ok.inj hlen).symm
    obtain ⟨hfound, hfree⟩ := hs.exact hlive hcard
    refine ⟨?_, ⟨hfree.nodup, hfree.mem_iff⟩, ?_⟩
    · intro x n hn
      exact honce x (hfound ▸ Arena.mem_liveSlots.2 ⟨n, hn⟩)
    · intro node
      obtain ⟨arena, slot, hins, hnone, -⟩ := Arena.insert_ok hfree node
      exact ⟨arena, slot, hins, hnone⟩

/-- One bid of five at 100, alone in its level. -/
def oneBid : Node := ⟨1, 1, 100, 5, .buy, none, none, 0⟩

/-- A book with that bid, over a given arena. -/
def oneBidBook (arena : Arena) : Book :=
  { bids := (∅ : PriceMap).insert 100 ⟨some 0, some 0, 5, 1⟩, asks := ∅, arena
    orderIndex := Finmap.singleton (1, 1) 0
    accounts := Finmap.singleton 1 ⟨[0], 500⟩, lastTrade := none, massCancelScratch := [] }

theorem audit_adequate_oneBid : (oneBidBook ⟨[some oneBid, none], [1]⟩).assertInvariants .dev = .ok () ∧
    (oneBidBook ⟨[some oneBid, none], [1]⟩).Adequate := by
  have h : (oneBidBook ⟨[some oneBid, none], [1]⟩).assertInvariants .dev = .ok () := by
    obtain ⟨u, hu⟩ := exists_of_isOk (x := (oneBidBook ⟨[some oneBid, none], [1]⟩).assertInvariants .dev)
      (by decide +kernel)
    exact hu
  exact ⟨h, (audit_adequate_iff _ _ h).2 ⟨by decide, by decide⟩⟩

/-- The arena of `orphan_arena_node_is_caught`, and the slot of the bid on the free list. -/
def orphanArena : Arena := ⟨[some oneBid, some { oneBid with id := 2, qty := 1, acctIdx := 1 }], [0]⟩

/-- **A corrupt arena that passes.** The second node is in no chain, and the free list names the
slot of the first: the lengths still differ by one. The next insertion overwrites the resting bid. -/
theorem audit_misses_orphan : (oneBidBook orphanArena).assertInvariants .dev = .ok () ∧
    ¬ (oneBidBook orphanArena).Adequate ∧
    (∃ n, orphanArena.get 1 = some n ∧ ∀ s p, 1 ∉ (oneBidBook orphanArena).chain s p) ∧
    orphanArena.get 0 = some oneBid ∧ ∀ node, ∃ arena, orphanArena.insert node = .ok (arena, 0) := by
  refine ⟨?_, ?_, ⟨_, rfl, ?_⟩, rfl, fun node => ⟨_, rfl⟩⟩
  · obtain ⟨u, hu⟩ := exists_of_isOk (x := (oneBidBook orphanArena).assertInvariants .dev) (by decide +kernel)
    exact hu
  · intro ha
    have h0 : orphanArena.slots[0]? = some none := (ha.free.2 0).1 (by decide)
    exact absurd h0 (by decide)
  · intro s p hx
    obtain ⟨l, hl, hx⟩ := Book.mem_chain.1 hx
    have hall : ∀ e ∈ (oneBidBook orphanArena).levels, 1 ∉ (oneBidBook orphanArena).levelSlots e.2.2 := by
      decide +kernel
    exact hall _ hl hx

end MatchingEngine
