import MatchingEngine.Core.Types
import MatchingEngine.Lib.Run

/-!
# The arena

Slot-stable storage of resting orders with a free list (`core::arena`). Slot
numbers and links are `u32` in the source with `u32::MAX` for "no node"; here a
slot is a natural and a link an `Option`. The source casts a new slot with `as u32`,
and its slot number `u32::MAX` would be `NULL`: the cast and the collision are left
out. There are as many slots as orders have ever rested at once, so a result about
runs speaks of the code while fewer than `2 ^ 32 - 1` orders rest at a time; where the
bound itself is the point (the representation of the book, the range of its cached
sums) it is a hypothesis.

The free list is a stack, its top first.
-/

namespace MatchingEngine

/-- A resting order, and its neighbours at its level. `acctIdx` is its place in its account's list. -/
structure Node where
  id : ℕ
  account : ℕ
  price : ℕ
  qty : ℕ
  side : Side
  prev : Option ℕ
  next : Option ℕ
  acctIdx : ℕ
  deriving DecidableEq, Repr

/-- The key a node is indexed under. -/
def Node.key (n : Node) : Key := (n.account, n.id)

/-- The slots, and the free ones among them. -/
structure Arena where
  slots : List (Option Node)
  free : List ℕ
  deriving Repr

namespace Arena

/-- No slots yet. -/
def new : Arena := ⟨[], []⟩

/-- The node in a slot, if the slot is live. -/
def get (a : Arena) (slot : ℕ) : Option Node := a.slots[slot]?.join

/-- Insert into a free slot, the last freed one first, or else at the end. -/
def insert (a : Arena) (node : Node) : Except Panic (Arena × ℕ) :=
  match a.free with
  | slot :: free =>
    if slot < a.slots.length then .ok (⟨a.slots.set slot (some node), free⟩, slot)
    else .error .indexOutOfRange
  | [] => .ok (⟨a.slots ++ [some node], []⟩, a.slots.length)

/-- Free a slot, for the next insert to take. -/
def freeSlot (P : Profile) (a : Arena) (slot : ℕ) : Except Panic Arena :=
  if slot < a.slots.length then do
    P.debugAssert (a.get slot).isSome "freeing a slot that was already free"
    pure ⟨a.slots.set slot none, slot :: a.free⟩
  else .error .indexOutOfRange

/-- Number of live slots. -/
def len (a : Arena) : ℕ := a.slots.length - a.free.length

/-- The same on any arena: a `usize` subtraction, which leaves the range when the free list is the
longer one. -/
def lenChecked (P : Profile) (a : Arena) : Except Panic ℕ :=
  if a.free.length ≤ a.slots.length then .ok a.len
  else P.store64 ((a.slots.length : ℤ) - a.free.length)

/-- `get_mut(slot).expect(msg)`, then an assignment to the node. -/
def update (a : Arena) (slot : ℕ) (msg : String) (f : Node → Node) : Except Panic Arena := do
  let node ← expect msg (a.get slot)
  pure { a with slots := a.slots.set slot (some (f node)) }

/-- The same through a link, nothing when the link is null. -/
def updateLink (a : Arena) (link : Option ℕ) (msg : String) (f : Node → Node) : Except Panic Arena :=
  match link with
  | some slot => a.update slot msg f
  | none => .ok a

/-- The node before, as a slot. -/
def prev (a : Arena) (slot : ℕ) : Option ℕ := (a.get slot).bind Node.prev

/-- The node behind, as a slot. -/
def next (a : Arena) (slot : ℕ) : Option ℕ := (a.get slot).bind Node.next

/-- The slots that hold a node. -/
def liveSlots (a : Arena) : Finset ℕ := {x ∈ Finset.range a.slots.length | (a.get x).isSome = true}

/-- The slots that hold none. -/
def emptySlots (a : Arena) : Finset ℕ := {x ∈ Finset.range a.slots.length | ¬ (a.get x).isSome = true}

/-- The free list lists the empty slots, each once. -/
structure FreeOK (a : Arena) : Prop where
  nodup : a.free.Nodup
  mem_iff : ∀ slot, slot ∈ a.free ↔ a.slots[slot]? = some none

variable {a a' : Arena} {slot : ℕ} {n : Node}

@[simp] theorem get_new (slot : ℕ) : new.get slot = none := by simp [get, new]

/-- A live slot is within the array. -/
theorem get_lt (h : a.get slot = some n) : slot < a.slots.length := by
  unfold get at h
  by_contra hge
  rw [List.getElem?_eq_none (by omega)] at h
  simp at h

/-- The same as an entry of the array. -/
theorem slots_get (h : a.get slot = some n) : a.slots[slot]? = some (some n) := by
  have := get_lt h
  unfold get at h
  rw [List.getElem?_eq_getElem this] at h ⊢
  simpa using h

/-- Setting a slot changes that slot. -/
theorem get_set {l : List (Option Node)} {f : List ℕ} {x : ℕ} {v : Option Node} (hx : x < l.length) (y : ℕ) :
    Arena.get ⟨l.set x v, f⟩ y = if y = x then v else Arena.get ⟨l, []⟩ y := by
  unfold get
  simp only [List.getElem?_set]
  by_cases h : x = y
  · subst h; simp [hx]
  · rw [if_neg h, if_neg (fun e => h e.symm)]

/-- Every slot is live or empty. -/
theorem card_slots (a : Arena) : a.liveSlots.card + a.emptySlots.card = a.slots.length := by
  have := Finset.card_filter_add_card_filter_not (s := Finset.range a.slots.length) (fun x => (a.get x).isSome = true)
  rw [Finset.card_range] at this
  exact this

theorem mem_liveSlots {x : ℕ} : x ∈ a.liveSlots ↔ ∃ n, a.get x = some n := by
  unfold liveSlots
  rw [Finset.mem_filter, Finset.mem_range, Option.isSome_iff_exists]
  exact ⟨And.right, fun ⟨n, hn⟩ => ⟨get_lt hn, n, hn⟩⟩

theorem mem_emptySlots {x : ℕ} : x ∈ a.emptySlots ↔ a.slots[x]? = some none := by
  unfold emptySlots get
  rw [Finset.mem_filter, Finset.mem_range]
  constructor
  · rintro ⟨hlt, hn⟩
    rw [List.getElem?_eq_getElem hlt] at hn ⊢
    simpa using hn
  · intro hx
    exact ⟨(List.getElem?_eq_some_iff.1 hx).1, by simp [hx]⟩

/-- The arena's count is the number of live slots. -/
theorem FreeOK.card_live (h : a.FreeOK) : a.liveSlots.card = a.len := by
  have hempty : a.free.toFinset = a.emptySlots := by
    ext x
    rw [List.mem_toFinset, h.mem_iff, mem_emptySlots]
  have hfree : a.emptySlots.card = a.free.length := by rw [← hempty, List.toFinset_card_of_nodup h.nodup]
  have htotal := a.card_slots
  unfold len
  omega

/-- What an update leaves behind. -/
theorem update_ok (h : a.get slot = some n) (msg : String) (f : Node → Node) :
    ∃ a', a.update slot msg f = .ok a' ∧ a'.free = a.free ∧ a'.slots.length = a.slots.length ∧
      ∀ y, a'.get y = if slot = y then (a.get y).map f else a.get y := by
  refine ⟨{ a with slots := a.slots.set slot (some (f n)) }, ?_, rfl, by simp, ?_⟩
  · simp [update, h, bind, Except.bind, pure, Except.pure]
  · intro y
    rw [get_set (get_lt h)]
    by_cases hy : slot = y
    · subst hy; simp [h]
    · rw [if_neg hy, if_neg (fun e => hy e.symm)]; rfl

/-- The same through a link: nothing happens if it is null. -/
theorem updateLink_ok {link : Option ℕ} (h : ∀ slot, link = some slot → ∃ n, a.get slot = some n)
    (msg : String) (f : Node → Node) :
    ∃ a', a.updateLink link msg f = .ok a' ∧ a'.free = a.free ∧ a'.slots.length = a.slots.length ∧
      ∀ y, a'.get y = if link = some y then (a.get y).map f else a.get y := by
  cases link with
  | none => exact ⟨a, rfl, rfl, rfl, fun y => by simp⟩
  | some slot =>
    obtain ⟨n, hn⟩ := h slot rfl
    obtain ⟨a', h1, h2, h3, h4⟩ := update_ok hn msg f
    exact ⟨a', h1, h2, h3, fun y => by rw [h4 y]; simp only [Option.some.injEq]⟩

/-- Keeping every slot live or empty keeps the free list right. -/
theorem FreeOK.congr (h : a.FreeOK) (hf : a'.free = a.free) (hl : a'.slots.length = a.slots.length)
    (hg : ∀ y, (a'.get y).isSome = (a.get y).isSome) : a'.FreeOK := by
  have key : ∀ (b : Arena) y, b.slots[y]? = some none ↔ y < b.slots.length ∧ (b.get y).isSome = false := by
    intro b y
    unfold get
    constructor
    · intro hy
      exact ⟨(List.getElem?_eq_some_iff.1 hy).1, by simp [hy]⟩
    · rintro ⟨hy, hn⟩
      rw [List.getElem?_eq_getElem hy] at hn ⊢
      simpa using hn
  refine ⟨hf ▸ h.nodup, fun y => ?_⟩
  rw [hf, h.mem_iff y, key, key, hl, hg y]

/-- **Insertion** takes a slot that was not live, and keeps the free list right. It grows the
arena only when every slot is live. -/
theorem insert_ok (h : a.FreeOK) (n : Node) :
    ∃ a' slot, a.insert n = .ok (a', slot) ∧ a.get slot = none ∧ a'.FreeOK ∧
      a'.slots.length = max a.slots.length (a.len + 1) ∧
      ∀ y, a'.get y = if y = slot then some n else a.get y := by
  unfold insert
  cases hf : a.free with
  | nil =>
    refine ⟨⟨a.slots ++ [some n], []⟩, a.slots.length, rfl, by simp [get], ⟨by simp, ?_⟩,
      by simp [len, hf], ?_⟩
    · intro y
      have hempty := h.mem_iff y
      rw [hf] at hempty
      simp only [List.not_mem_nil, false_iff] at hempty ⊢
      rw [List.getElem?_append]
      split
      · exact hempty
      · rw [List.getElem?_singleton]; split <;> simp
    · intro y
      unfold get
      simp only [List.getElem?_append, List.getElem?_singleton]
      by_cases hy : y = a.slots.length
      · subst hy; simp
      · rw [if_neg hy]
        split
        · rfl
        · rw [if_neg (by omega), List.getElem?_eq_none (by omega)]
  | cons slot free =>
    have hs : a.slots[slot]? = some none := (h.mem_iff slot).1 (by rw [hf]; simp)
    have hlt : slot < a.slots.length := (List.getElem?_eq_some_iff.1 hs).1
    have hnd := h.nodup
    rw [hf, List.nodup_cons] at hnd
    have hlen : a.len + 1 ≤ a.slots.length := by
      unfold len
      rw [hf, List.length_cons]
      omega
    refine ⟨⟨a.slots.set slot (some n), free⟩, slot, by simp [hlt], by simp [get, hs], ⟨hnd.2, ?_⟩,
      by simp [hlen], ?_⟩
    · intro y
      have hy := h.mem_iff y
      rw [hf, List.mem_cons] at hy
      simp only [List.getElem?_set]
      by_cases he : slot = y
      · subst he; simp [hlt, hnd.1]
      · rw [if_neg he, ← hy]
        exact ⟨Or.inr, fun h => h.resolve_left (fun e => he e.symm)⟩
    · intro y; rw [get_set hlt]; rfl

/-- **Freeing** a live slot empties it, and keeps the free list right. -/
theorem freeSlot_ok (P : Profile) (h : a.FreeOK) (hn : a.get slot = some n) :
    ∃ a', a.freeSlot P slot = .ok a' ∧ a'.FreeOK ∧ a'.slots.length = a.slots.length ∧
      ∀ y, a'.get y = if y = slot then none else a.get y := by
  have hlt := get_lt hn
  refine ⟨⟨a.slots.set slot none, slot :: a.free⟩, ?_, ⟨?_, ?_⟩, by simp, ?_⟩
  · unfold freeSlot
    rw [if_pos hlt, Profile.debugAssert_ok (by simp [hn])]
    rfl
  · have : slot ∉ a.free := by
      rw [h.mem_iff, slots_get hn]
      simp
    exact List.nodup_cons.2 ⟨this, h.nodup⟩
  · intro y
    simp only [List.mem_cons, List.getElem?_set]
    by_cases he : slot = y
    · subst he; simp [hlt]
    · rw [if_neg he, ← h.mem_iff y]
      exact ⟨fun h => h.resolve_left (fun e => he e.symm), Or.inr⟩
  · intro y; rw [get_set hlt]; rfl

/-! ### Orders kept, added and removed -/

/-- No more nodes than slots. -/
theorem card_live_le (a : Arena) : a.liveSlots.card ≤ a.slots.length := by
  have := a.card_slots
  omega

/-- Two arenas with the same orders in the same slots, whatever the rest of the nodes. -/
structure SameOrders (a a' : Arena) : Prop where
  free : a'.free = a.free
  length : a'.slots.length = a.slots.length
  key : ∀ y, (a'.get y).map Node.key = (a.get y).map Node.key

namespace SameOrders

variable {a'' : Arena}

theorem refl (a : Arena) : SameOrders a a := ⟨rfl, rfl, fun _ => rfl⟩

theorem trans (h : SameOrders a a') (h' : SameOrders a' a'') : SameOrders a a'' :=
  ⟨h'.free.trans h.free, h'.length.trans h.length, fun y => (h'.key y).trans (h.key y)⟩

/-- The same slots are live. -/
theorem isSome (h : SameOrders a a') (y : ℕ) : (a'.get y).isSome = (a.get y).isSome := by
  rw [← Option.isSome_map (f := Node.key), h.key, Option.isSome_map]

/-- So the free list stays right. -/
theorem freeOK (h : SameOrders a a') (hf : a.FreeOK) : a'.FreeOK := hf.congr h.free h.length h.isSome

end SameOrders

/-- An update that keeps the node's key. -/
theorem update_same {msg : String} {f : Node → Node} (h : a.update slot msg f = .ok a') (hf : ∀ n, (f n).key = n.key) :
    SameOrders a a' := by
  obtain ⟨n, hn, -⟩ := exists_of_bind_ok h
  obtain ⟨a₁, h₁, hfree, hlen, hget⟩ := update_ok (expect_ok hn) msg f
  obtain rfl := Except.ok.inj (h₁.symm.trans h)
  refine ⟨hfree, hlen, fun y => ?_⟩
  rw [hget y]
  split
  · cases a.get y with
    | none => rfl
    | some m => exact congrArg some (hf m)
  · rfl

/-- An update that leaves the keys alone. -/
theorem updateLink_same {link : Option ℕ} {msg : String} {f : Node → Node} (h : a.updateLink link msg f = .ok a')
    (hf : ∀ n, (f n).key = n.key) : SameOrders a a' := by
  cases link with
  | none =>
    obtain rfl := Except.ok.inj h
    exact .refl a
  | some slot => exact update_same h hf

/-- **Insertion, counted**: one more live slot, and the arena grows to the number of live slots if that
is more than it has. -/
theorem insert_grows (h : a.FreeOK) (hi : a.insert n = .ok (a', slot)) :
    a'.FreeOK ∧ a'.slots.length = max a.slots.length a'.liveSlots.card ∧ a.get slot = none ∧
      ∀ y, a'.get y = if y = slot then some n else a.get y := by
  obtain ⟨a₁, x, h₁, hnone, hfree, hlen, hget⟩ := insert_ok h n
  obtain ⟨rfl, rfl⟩ := Prod.mk.inj (Except.ok.inj (h₁.symm.trans hi))
  have hlive : a₁.liveSlots = Insert.insert x a.liveSlots := by
    ext y
    rw [Finset.mem_insert, mem_liveSlots, mem_liveSlots, hget y]
    by_cases hy : y = x
    · simp [hy]
    · simp [hy]
  have hnew : x ∉ a.liveSlots := by
    rw [mem_liveSlots, hnone]
    simp
  refine ⟨hfree, ?_, hnone, hget⟩
  rw [hlen, hlive, Finset.card_insert_of_notMem hnew, h.card_live]

/-- **Freeing, counted**: the arena keeps its slots. -/
theorem freeSlot_keeps {P : Profile} (h : a.FreeOK) (hn : a.get slot = some n) (hf : a.freeSlot P slot = .ok a') :
    a'.FreeOK ∧ a'.slots.length = a.slots.length ∧ ∀ y, a'.get y = if y = slot then none else a.get y := by
  obtain ⟨a₁, h₁, hfree, hlen, hget⟩ := freeSlot_ok P h hn
  obtain rfl := Except.ok.inj (h₁.symm.trans hf)
  exact ⟨hfree, hlen, hget⟩

end Arena

end MatchingEngine
