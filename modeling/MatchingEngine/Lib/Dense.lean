import Mathlib.Data.List.Nodup

/-!
# Dense arrays with back-indices

A set of owned elements is kept in an array without holes, and each element
knows its own position (`DenseArray`). Removal moves the last element into the hole
and rewrites that element's position (`swapRemove`).

* `DenseArray.push`, `DenseArray.remove`: the two updates keep the array dense.
* `swapRemove_map`: removal commutes with relabelling.
-/

section Dense

variable {α β : Type*}

/-- Remove position `i`, moving the last element into it. -/
def swapRemove (l : List α) (i : ℕ) : List α :=
  match l.getLast? with
  | none => []
  | some z => (l.set i z).dropLast

theorem getElem?_swapRemove {l : List α} {i : ℕ} (hi : i < l.length) (j : ℕ) :
    (swapRemove l i)[j]? =
      if j < l.length - 1 then (if j = i then l[l.length - 1]? else l[j]?) else none := by
  unfold swapRemove
  have hz : l.getLast? = l[l.length - 1]? := List.getLast?_eq_getElem?
  have hlast : l[l.length - 1]? = some (l.get ⟨l.length - 1, by omega⟩) := by simp
  rw [hz, hlast]
  simp only [List.getElem?_dropLast, List.length_set, List.getElem?_set]
  split
  · by_cases hji : j = i
    · subst hji; simp
    · rw [if_neg (fun h => hji h.symm), if_neg hji]
  · rfl

/-- Removing what was pushed last. -/
theorem swapRemove_push [DecidableEq α] {l : List α} {x : α} (hx : x ∉ l) :
    swapRemove (l ++ [x]) ((l ++ [x]).idxOf x) = l := by
  have hidx : (l ++ [x]).idxOf x = l.length := by
    rw [List.idxOf_append_of_notMem hx, List.idxOf_cons_self, Nat.add_zero]
  unfold swapRemove
  rw [hidx, List.getLast?_append_of_ne_nil _ (List.cons_ne_nil x []), List.getLast?_singleton]
  simp

theorem swapRemove_length_le {l : List α} {i : ℕ} : (swapRemove l i).length ≤ l.length := by
  unfold swapRemove
  cases l.getLast? with
  | none => exact Nat.zero_le _
  | some z =>
    rw [List.length_dropLast, List.length_set]
    omega

theorem swapRemove_map (f : α → β) (l : List α) (i : ℕ) :
    swapRemove (l.map f) i = (swapRemove l i).map f := by
  unfold swapRemove
  rw [List.getLast?_map]
  cases l.getLast? with
  | none => rfl
  | some z => simp [List.map_set, List.map_dropLast]

theorem idxOf_map [DecidableEq α] [DecidableEq β] {f : α → β} (hf : Function.Injective f) (l : List α) (x : α) :
    (l.map f).idxOf (f x) = l.idxOf x := by
  induction l with
  | nil => rfl
  | cons y l ih =>
    by_cases hy : y = x
    · rw [hy, List.map_cons, List.idxOf_cons_self, List.idxOf_cons_self]
    · rw [List.map_cons, List.idxOf_cons_ne _ (fun he => hy (hf he)), List.idxOf_cons_ne _ hy, ih]

/-- Removing where an element stands leaves the others. -/
theorem swapRemove_perm [DecidableEq α] {l : List α} {x : α} (hx : x ∈ l) :
    l.Perm (x :: swapRemove l (l.idxOf x)) := by
  obtain ⟨pre, post, rfl, hpre⟩ := List.eq_append_cons_of_mem hx
  have hi : (pre ++ x :: post).idxOf x = pre.length := by
    rw [List.idxOf_append_of_notMem hpre, List.idxOf_cons_self, Nat.add_zero]
  rw [hi]
  rcases List.eq_nil_or_concat post with rfl | ⟨mid, z, rfl⟩
  · have hs : swapRemove (pre ++ [x]) pre.length = pre := by simp [swapRemove]
    rw [hs]
    exact List.perm_append_comm
  · have hs : swapRemove (pre ++ x :: mid.concat z) pre.length = pre ++ z :: mid := by
      have hlast : (pre ++ x :: mid.concat z).getLast? = some z := by
        rw [List.concat_eq_append, ← List.cons_append, ← List.append_assoc, List.getLast?_concat]
      unfold swapRemove
      rw [hlast]
      simp only [List.concat_eq_append, List.set_append_right _ _ (Nat.le_refl _), Nat.sub_self, List.set_cons_zero]
      rw [← List.cons_append, ← List.append_assoc, List.dropLast_concat]
    rw [hs]
    have hz : (mid.concat z).Perm (z :: mid) := by
      rw [List.concat_eq_append]
      exact List.perm_append_comm
    exact ((hz.cons x).append_left pre).trans List.perm_middle

/-- The array `l` lists the owned elements, each at the position it records. -/
def DenseArray (l : List α) (own : α → Prop) (idx : α → ℕ) : Prop :=
  ∀ i x, l[i]? = some x ↔ own x ∧ idx x = i

variable {l : List α} {own own' : α → Prop} {idx idx' : α → ℕ} {x : α}

theorem denseArray_nil (h : ∀ x, ¬ own x) : DenseArray [] own idx := by
  intro i x
  simp [h x]

theorem DenseArray.congr (h : DenseArray l own idx) (ho : ∀ y, own' y ↔ own y) (hi : ∀ y, own y → idx' y = idx y) :
    DenseArray l own' idx' := by
  intro i y
  rw [h i y, ho y]
  constructor
  · rintro ⟨hy, rfl⟩; exact ⟨hy, hi y hy⟩
  · rintro ⟨hy, hidx⟩; exact ⟨hy, (hi y hy) ▸ hidx⟩

theorem DenseArray.getElem? (h : DenseArray l own idx) (hx : own x) : l[idx x]? = some x := (h _ _).2 ⟨hx, rfl⟩

theorem DenseArray.lt (h : DenseArray l own idx) (hx : own x) : idx x < l.length :=
  (List.getElem?_eq_some_iff.1 (h.getElem? hx)).1

theorem DenseArray.mem_iff (h : DenseArray l own idx) : x ∈ l ↔ own x := by
  rw [List.mem_iff_getElem?]
  constructor
  · rintro ⟨i, hi⟩; exact ((h i x).1 hi).1
  · intro hx; exact ⟨idx x, h.getElem? hx⟩

theorem DenseArray.nodup (h : DenseArray l own idx) : l.Nodup := by
  rw [List.nodup_iff_getElem?_ne_getElem?]
  intro i j hij hj he
  obtain ⟨y, hy⟩ : ∃ y, l[j]? = some y := ⟨_, List.getElem?_eq_getElem hj⟩
  have h1 := ((h j y).1 hy).2
  have h2 := ((h i y).1 (he.trans hy)).2
  omega

/-- **Appending** an element that records the old length. -/
theorem DenseArray.push (h : DenseArray l own idx) (hx : ¬ own x) (ho : ∀ y, own' y ↔ own y ∨ y = x)
    (hix : idx' x = l.length) (hi : ∀ y, own y → idx' y = idx y) : DenseArray (l ++ [x]) own' idx' := by
  intro i y
  rw [List.getElem?_append, ho y]
  split
  · rename_i hlt
    rw [h i y]
    constructor
    · rintro ⟨hy, rfl⟩; exact ⟨Or.inl hy, hi y hy⟩
    · rintro ⟨hy | rfl, rfl⟩
      · exact ⟨hy, (hi y hy).symm⟩
      · omega
  · rename_i hge
    rw [List.getElem?_singleton]
    constructor
    · intro hy
      split at hy
      · simp only [Option.some.injEq] at hy
        subst hy
        exact ⟨Or.inr rfl, by omega⟩
      · simp at hy
    · rintro ⟨hy | rfl, rfl⟩
      · have := h.lt hy; rw [hi y hy] at hge; omega
      · simp [hix]

/-- **Swap-removal.** Only the element moved into the hole gets a new position. -/
theorem DenseArray.remove (h : DenseArray l own idx) (hx : own x) (ho : ∀ y, own' y ↔ own y ∧ y ≠ x)
    (hi : ∀ y, own y → y ≠ x →
      ((swapRemove l (idx x))[idx x]? = some y → idx' y = idx x) ∧
      ((swapRemove l (idx x))[idx x]? ≠ some y → idx' y = idx y)) :
    DenseArray (swapRemove l (idx x)) own' idx' := by
  have hlt := h.lt hx
  -- the last element, and where it sits
  obtain ⟨z, hz⟩ : ∃ z, l[l.length - 1]? = some z := ⟨_, List.getElem?_eq_getElem (by omega)⟩
  obtain ⟨hzo, hzi⟩ := (h _ z).1 hz
  have hmoved : ∀ y, (swapRemove l (idx x))[idx x]? = some y ↔ idx x < l.length - 1 ∧ y = z := by
    intro y
    rw [getElem?_swapRemove hlt, if_pos rfl, hz]
    by_cases hlt' : idx x < l.length - 1
    · simp [hlt', eq_comm]
    · simp [hlt']
  intro i y
  rw [getElem?_swapRemove hlt, ho y]
  by_cases hyx : y = x
  · subst hyx
    constructor
    · intro hy
      split at hy
      · split at hy
        · have := ((h _ y).1 hy).2; omega
        · have := ((h _ y).1 hy).2; omega
      · simp at hy
    · rintro ⟨⟨-, hne⟩, -⟩; exact absurd rfl hne
  · by_cases hyz : y = z
    · subst hyz
      have hxne : idx x ≠ l.length - 1 := by
        intro he
        have := h.getElem? hx
        rw [he, hz] at this
        exact hyx (by simpa using this)
      have hyi := (hi y hzo hyx).1 ((hmoved y).2 ⟨by omega, rfl⟩)
      constructor
      · intro hy
        split at hy
        · split at hy
          · rename_i he; exact ⟨⟨hzo, hyx⟩, by rw [hyi, he]⟩
          · have := ((h _ y).1 hy).2; omega
        · simp at hy
      · rintro ⟨-, rfl⟩
        rw [hyi, if_pos (by omega), if_pos rfl, hz]
    · constructor
      · intro hy
        split at hy
        · split at hy
          · rw [hz] at hy; exact absurd (by simpa using hy.symm) hyz
          · obtain ⟨hyo, hyi⟩ := (h _ y).1 hy
            exact ⟨⟨hyo, hyx⟩, by
              rw [(hi y hyo hyx).2 (fun hm => hyz ((hmoved y).1 hm).2), hyi]⟩
        · simp at hy
      · rintro ⟨⟨hyo, -⟩, rfl⟩
        rw [(hi y hyo hyx).2 (fun hm => hyz ((hmoved y).1 hm).2)]
        have h1 := h.getElem? hyo
        have h2 := h.lt hyo
        have h3 : idx y ≠ l.length - 1 := by
          intro he; rw [he, hz] at h1; exact hyz (by simpa using h1.symm)
        have h4 : idx y ≠ idx x := by
          intro he; rw [he, h.getElem? hx] at h1; exact hyx (by simpa using h1.symm)
        rw [if_pos (by omega), if_neg h4, h1]

end Dense
