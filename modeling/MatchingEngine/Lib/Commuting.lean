import MatchingEngine.Lib.Priority

/-!
# Operations that commute

* `foldl_swap`: operations that commute one with one commute in sequence.
* `insertBack_comm`: elements of different ranks join a queue in either order.
* `filter_insertBack_of_sorted`: taking others out commutes with joining.
-/

section Folds

variable {σ ι κ : Type*} {f : σ → ι → σ} {g : σ → κ → σ} (Inv : σ → Prop)

/-- Past one operation. -/
theorem foldl_swap_one (hg : ∀ s j, Inv s → Inv (g s j)) {i : ι} {js : List κ}
    (hcomm : ∀ s, Inv s → ∀ j ∈ js, g (f s i) j = f (g s j) i) {s : σ} (hs : Inv s) :
    js.foldl g (f s i) = f (js.foldl g s) i := by
  induction js generalizing s with
  | nil => rfl
  | cons j js ih =>
    rw [List.foldl_cons, List.foldl_cons, hcomm s hs j List.mem_cons_self]
    exact ih (fun s hs j hj => hcomm s hs j (List.mem_cons_of_mem _ hj)) (hg s j hs)

/-- **Operations that commute one with one commute in sequence**, where an invariant of both holds. -/
theorem foldl_swap (hf : ∀ s i, Inv s → Inv (f s i)) (hg : ∀ s j, Inv s → Inv (g s j)) {is : List ι} {js : List κ}
    (hcomm : ∀ s, Inv s → ∀ i ∈ is, ∀ j ∈ js, g (f s i) j = f (g s j) i) {s : σ} (hs : Inv s) :
    js.foldl g (is.foldl f s) = is.foldl f (js.foldl g s) := by
  induction is generalizing s with
  | nil => rfl
  | cons i is ih =>
    rw [List.foldl_cons, List.foldl_cons, ih (fun s hs i hi => hcomm s hs i (List.mem_cons_of_mem _ hi)) (hf s i hs),
      foldl_swap_one Inv hg (fun s hs j hj => hcomm s hs i List.mem_cons_self j hj) hs]

end Folds

section Queues

variable {α κ : Type*} {f : α → κ} {le : κ → κ → Prop} [DecidableRel le]

theorem insertBack_cons (a b : α) (l : List α) :
    insertBack f le a (b :: l) = if le (f b) (f a) then b :: insertBack f le a l else a :: b :: l := by
  unfold insertBack
  by_cases h : le (f b) (f a)
  · rw [List.takeWhile_cons_of_pos (by simpa using h), List.dropWhile_cons_of_pos (by simpa using h), if_pos h]
    rfl
  · rw [List.takeWhile_cons_of_neg (by simpa using h), List.dropWhile_cons_of_neg (by simpa using h), if_neg h]
    rfl

/-- **Elements of different ranks join a queue in either order.** -/
theorem insertBack_comm (htot : ∀ a b, le a b ∨ le b a) (htr : ∀ a b c, le a b → le b c → le a c)
    (hanti : ∀ a b, le a b → le b a → a = b) {a b : α} (hne : f a ≠ f b) (l : List α) :
    insertBack f le a (insertBack f le b l) = insertBack f le b (insertBack f le a l) := by
  -- two elements at one place: exactly one of them ranks better
  have hpair : ∀ l, (if le (f b) (f a) then b :: a :: l else a :: b :: l) =
      if le (f a) (f b) then a :: b :: l else b :: a :: l := by
    intro l
    by_cases hab : le (f a) (f b)
    · rw [if_pos hab, if_neg (fun hba => hne (hanti _ _ hab hba))]
    · rw [if_neg hab, if_pos ((htot _ _).resolve_left hab)]
  induction l with
  | nil =>
    show insertBack f le a [b] = insertBack f le b [a]
    rw [insertBack_cons, insertBack_cons]
    exact hpair []
  | cons c l ih =>
    by_cases hca : le (f c) (f a) <;> by_cases hcb : le (f c) (f b)
    · simp only [insertBack_cons, if_pos hca, if_pos hcb, ih]
    · have hba : le (f b) (f a) := htr _ _ _ ((htot _ _).resolve_left hcb) hca
      simp only [insertBack_cons, if_pos hca, if_neg hcb, if_pos hba]
    · have hab : le (f a) (f b) := htr _ _ _ ((htot _ _).resolve_left hca) hcb
      simp only [insertBack_cons, if_neg hca, if_pos hcb, if_pos hab]
    · simp only [insertBack_cons, if_neg hca, if_neg hcb]
      exact hpair (c :: l)

/-- **Taking others out commutes with joining**, in a queue in its order. -/
theorem filter_insertBack_of_sorted (htr : ∀ a b c, le a b → le b c → le a c) {p : α → Bool} {a : α} (ha : p a = true)
    {l : List α} (hs : l.Pairwise (fun a b => le (f a) (f b))) :
    (insertBack f le a l).filter p = insertBack f le a (l.filter p) := by
  induction l with
  | nil => exact List.filter_cons_of_pos ha
  | cons b l ih =>
    rw [List.pairwise_cons] at hs
    rw [insertBack_cons]
    by_cases hle : le (f b) (f a)
    · rw [if_pos hle]
      by_cases hb : p b = true
      · rw [List.filter_cons_of_pos hb, List.filter_cons_of_pos hb, insertBack_cons, if_pos hle, ih hs.2]
      · rw [List.filter_cons_of_neg hb, List.filter_cons_of_neg hb, ih hs.2]
    · rw [if_neg hle, List.filter_cons_of_pos ha]
      -- nothing behind ranks at least as well as the new element either
      have hfirst : ∀ x l', (b :: l).filter p = x :: l' → ¬ le (f x) (f a) := by
        intro x l' he hx
        have hmem : x ∈ b :: l := (List.mem_filter.1 (he ▸ List.mem_cons_self)).1
        rcases List.mem_cons.1 hmem with rfl | hmem
        · exact hle hx
        · exact hle (htr _ _ _ (hs.1 x hmem) hx)
      cases hfil : (b :: l).filter p with
      | nil => rfl
      | cons x l' => rw [insertBack_cons, if_neg (hfirst x l' hfil)]

end Queues
