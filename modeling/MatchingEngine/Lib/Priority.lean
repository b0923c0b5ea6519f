import Mathlib.Data.List.TakeWhile
import Mathlib.Tactic

/-!
# Queues ordered by a rank

A list whose elements carry a rank, best rank first, elements of one rank in the
order they were added. `le a b` reads "`a` ranks at least as well as `b`".

* `insertBack`: a new element goes behind everything that ranks at least as well.
* `insertBack_filter`: so it joins the back of its own rank and no other.
* `flatMap_filter`: the queue is its ranks, best first, one after the other.
* `List.SublistForall₂`: some of a queue, in its order, each element replaced by a related one.
-/

section Priority

variable {α κ : Type*} (f : α → κ) (le : κ → κ → Prop) [DecidableRel le]

/-- Insert behind every element that ranks at least as well. -/
def insertBack (a : α) (l : List α) : List α :=
  l.takeWhile (fun b => le (f b) (f a)) ++ a :: l.dropWhile (fun b => le (f b) (f a))

variable {f le}

theorem mem_insertBack {a b : α} {l : List α} : b ∈ insertBack f le a l ↔ b = a ∨ b ∈ l := by
  have h := List.takeWhile_append_dropWhile (p := fun b => decide (le (f b) (f a))) (l := l)
  unfold insertBack
  nth_rewrite 3 [← h]
  simp only [List.mem_append, List.mem_cons]
  tauto

theorem insertBack_perm (a : α) (l : List α) : (insertBack f le a l).Perm (a :: l) := by
  have h := List.takeWhile_append_dropWhile (p := fun b => decide (le (f b) (f a))) (l := l)
  unfold insertBack
  nth_rewrite 3 [← h]
  exact List.perm_middle

/-- What the insertion added can be taken out again. -/
theorem filter_insertBack {p : α → Bool} {a : α} {l : List α} (ha : p a = false) (hl : ∀ b ∈ l, p b = true) :
    (insertBack f le a l).filter p = l := by
  have hsplit := List.takeWhile_append_dropWhile (p := fun b => decide (le (f b) (f a))) (l := l)
  unfold insertBack
  rw [List.filter_append, List.filter_cons_of_neg (by simp [ha]), ← List.filter_append, hsplit]
  exact List.filter_eq_self.2 hl

theorem takeWhile_congr_mem {p q : α → Bool} {l : List α} (h : ∀ a ∈ l, p a = q a) : l.takeWhile p = l.takeWhile q := by
  induction l with
  | nil => rfl
  | cons a l ih =>
    have ih := ih (fun b hb => h b (List.mem_cons_of_mem _ hb))
    rw [List.takeWhile_cons, List.takeWhile_cons, h a List.mem_cons_self, ih]

theorem dropWhile_congr_mem {p q : α → Bool} {l : List α} (h : ∀ a ∈ l, p a = q a) : l.dropWhile p = l.dropWhile q := by
  induction l with
  | nil => rfl
  | cons a l ih =>
    have ih := ih (fun b hb => h b (List.mem_cons_of_mem _ hb))
    rw [List.dropWhile_cons, List.dropWhile_cons, h a List.mem_cons_self, ih]

/-- **Relabelling commutes with insertion**, if it keeps how the queue ranks against the new element. -/
theorem insertBack_map {β κ' : Type*} {f' : β → κ'} {le' : κ' → κ' → Prop} [DecidableRel le'] {g : α → β} {a : α}
    {l : List α} (h : ∀ b ∈ l, le' (f' (g b)) (f' (g a)) ↔ le (f b) (f a)) :
    insertBack f' le' (g a) (l.map g) = (insertBack f le a l).map g := by
  have hp : ∀ b ∈ l, decide (le' (f' (g b)) (f' (g a))) = decide (le (f b) (f a)) := fun b hb =>
    decide_eq_decide.2 (h b hb)
  unfold insertBack
  rw [List.takeWhile_map, List.dropWhile_map, List.map_append, List.map_cons]
  simp only [Function.comp_def]
  rw [takeWhile_congr_mem hp, dropWhile_congr_mem hp]

/-- Along a sorted list a condition that only gets harder holds exactly on a prefix. -/
theorem takeWhile_eq_filter {R : α → α → Prop} {p : α → Bool} {l : List α} (hs : l.Pairwise R)
    (hp : ∀ a b, R a b → p b → p a) : l.takeWhile p = l.filter p := by
  induction l with
  | nil => rfl
  | cons a l ih =>
    rw [List.pairwise_cons] at hs
    by_cases ha : p a
    · rw [List.takeWhile_cons_of_pos ha, List.filter_cons_of_pos ha, ih hs.2]
    · rw [List.takeWhile_cons_of_neg ha, List.filter_cons_of_neg ha, eq_comm, List.filter_eq_nil_iff]
      intro b hb hpb
      exact ha (hp a b (hs.1 b hb) hpb)

/-- Past the first element that does not rank at least as well as `a`, nothing does. -/
theorem dropWhile_not_le (htr : ∀ a b c, le a b → le b c → le a c) {a b : α} {l : List α}
    (hs : l.Pairwise (fun a b => le (f a) (f b))) (hb : b ∈ l.dropWhile (fun b => le (f b) (f a))) :
    ¬ le (f b) (f a) := by
  induction l with
  | nil => simp at hb
  | cons c l ih =>
    rw [List.pairwise_cons] at hs
    rw [List.dropWhile_cons] at hb
    split at hb
    · exact ih hs.2 hb
    · rename_i hc
      simp only [decide_eq_true_eq] at hc
      rcases List.mem_cons.1 hb with rfl | hb
      · exact hc
      · exact fun h => hc (htr _ _ _ (hs.1 b hb) h)

theorem insertBack_sorted (htot : ∀ a b, le a b ∨ le b a) (htr : ∀ a b c, le a b → le b c → le a c)
    (a : α) {l : List α} (hs : l.Pairwise (fun a b => le (f a) (f b))) :
    (insertBack f le a l).Pairwise (fun a b => le (f a) (f b)) := by
  have h := List.takeWhile_append_dropWhile (p := fun b => decide (le (f b) (f a))) (l := l)
  have htake : ∀ b ∈ l.takeWhile (fun b => le (f b) (f a)), le (f b) (f a) := fun b hb => by
    simpa using List.mem_takeWhile_imp hb
  have hdrop : ∀ b ∈ l.dropWhile (fun b => le (f b) (f a)), le (f a) (f b) := fun b hb =>
    (htot _ _).resolve_right (dropWhile_not_le htr hs hb)
  unfold insertBack
  rw [← h, List.pairwise_append] at hs
  rw [List.pairwise_append, List.pairwise_cons]
  refine ⟨hs.1, ⟨hdrop, hs.2.1⟩, ?_⟩
  intro b hb c hc
  rcases List.mem_cons.1 hc with rfl | hc
  · exact htake b hb
  · exact hs.2.2 b hb c hc

/-- The new element stands between those that rank at least as well and the rest. -/
theorem insertBack_split (htr : ∀ a b c, le a b → le b c → le a c) (a : α) {l : List α}
    (hs : l.Pairwise (fun a b => le (f a) (f b))) :
    ∃ ahead behind, l = ahead ++ behind ∧ insertBack f le a l = ahead ++ a :: behind ∧
      (∀ b ∈ ahead, le (f b) (f a)) ∧ ∀ b ∈ behind, ¬ le (f b) (f a) := by
  refine ⟨_, _, List.takeWhile_append_dropWhile.symm, rfl, fun b hb => ?_, fun b hb => dropWhile_not_le htr hs hb⟩
  simpa using List.mem_takeWhile_imp hb

/-- **The new element joins the back of its own rank**, and no other. -/
theorem insertBack_filter [DecidableEq κ] (hrefl : ∀ a, le a a)
    (htr : ∀ a b c, le a b → le b c → le a c) (a : α) {l : List α}
    (hs : l.Pairwise (fun a b => le (f a) (f b))) (k : κ) :
    (insertBack f le a l).filter (fun b => f b = k) =
      l.filter (fun b => f b = k) ++ (if f a = k then [a] else []) := by
  have h := List.takeWhile_append_dropWhile (p := fun b => decide (le (f b) (f a))) (l := l)
  unfold insertBack
  nth_rewrite 3 [← h]
  simp only [List.filter_append, List.filter_cons]
  by_cases hk : f a = k
  · have hnil : (l.dropWhile (fun b => le (f b) (f a))).filter (fun b => f b = k) = [] := by
      rw [List.filter_eq_nil_iff]
      intro b hb
      have hnle := dropWhile_not_le htr hs hb
      simp only [decide_eq_true_eq]
      rintro rfl
      exact hnle (hk ▸ hrefl _)
    rw [hnil, if_pos (by simpa using hk), if_pos hk]
    simp
  · rw [if_neg (by simpa using hk), if_neg hk]
    simp

omit [DecidableRel le] in
/-- **A queue is its ranks, best first, one after the other.** -/
theorem flatMap_filter [DecidableEq κ] (hanti : ∀ a b, le a b → le b a → a = b) {l : List α} {ks : List κ}
    (hs : l.Pairwise (fun a b => le (f a) (f b))) (hks : ks.Pairwise (fun a b => le a b ∧ a ≠ b))
    (hmem : ∀ a ∈ l, f a ∈ ks) : ks.flatMap (fun k => l.filter (fun a => f a = k)) = l := by
  induction ks generalizing l with
  | nil =>
    cases l with
    | nil => rfl
    | cons a l => exact absurd (hmem a (by simp)) (by simp)
  | cons k ks ih =>
    rw [List.pairwise_cons] at hks
    -- the elements of the best rank come first
    have hsplit : l.filter (fun a => f a = k) ++ l.filter (fun a => ¬ f a = k) = l := by
      clear ih
      induction l with
      | nil => rfl
      | cons a l ihl =>
        rw [List.pairwise_cons] at hs
        have ihl' := ihl hs.2 (fun b hb => hmem b (List.mem_cons_of_mem _ hb))
        by_cases ha : f a = k
        · simp only [List.filter_cons, ha, decide_true, if_true, not_true, decide_false,
            Bool.false_eq_true, if_false, List.cons_append, ihl']
        · have hnil : l.filter (fun a => f a = k) = [] := by
            rw [List.filter_eq_nil_iff]
            intro b hb
            simp only [decide_eq_true_eq]
            rintro rfl
            rcases List.mem_cons.1 (hmem a (by simp)) with h | h
            · exact ha h
            · exact ha (hanti _ _ (hs.1 b hb) (hks.1 _ h).1)
          have hall : l.filter (fun a => ¬ f a = k) = l := by
            rw [hnil] at ihl'; simpa using ihl'
          simp only [List.filter_cons, ha, decide_false, Bool.false_eq_true, if_false, not_false_eq_true,
            decide_true, if_true, hnil, hall, List.nil_append]
    have hrest : ks.flatMap (fun k' => l.filter (fun a => f a = k')) = l.filter (fun a => ¬ f a = k) := by
      have hfil : (ks.flatMap fun k' => (l.filter (fun a => ¬ f a = k)).filter (fun a => f a = k')) =
          l.filter (fun a => ¬ f a = k) := by
        apply ih (hs.sublist List.filter_sublist) hks.2
        intro a ha
        rw [List.mem_filter] at ha
        exact (List.mem_cons.1 (hmem a ha.1)).resolve_left (by simpa using ha.2)
      rw [← hfil]
      apply List.flatMap_congr
      intro k' hk'
      rw [List.filter_filter]
      apply List.filter_congr
      intro a _
      by_cases ha : f a = k'
      · have hne : k' ≠ k := fun he => (hks.1 k' hk').2 he.symm
        simp [ha, hne]
      · simp [ha]
    rw [List.flatMap_cons, hrest, hsplit]

end Priority

section Thinned

variable {α : Type*} {R : α → α → Prop} {l l' : List α}

theorem List.SublistForall₂.exists_of_mem (h : List.SublistForall₂ R l' l) {a' : α} (ha : a' ∈ l') :
    ∃ a ∈ l, R a' a := by
  induction h with
  | nil => simp at ha
  | @cons b' b l' l hb _ ih =>
    rcases List.mem_cons.1 ha with rfl | ha
    · exact ⟨b, List.mem_cons_self, hb⟩
    · obtain ⟨a, hal, hR⟩ := ih ha
      exact ⟨a, List.mem_cons_of_mem _ hal, hR⟩
  | cons_right _ ih =>
    obtain ⟨a, hal, hR⟩ := ih ha
    exact ⟨a, List.mem_cons_of_mem _ hal, hR⟩

/-- A weight that the relation does not raise adds up to no more. -/
theorem List.SublistForall₂.sum_le (h : List.SublistForall₂ R l' l) {w : α → ℕ} (hw : ∀ a' a, R a' a → w a' ≤ w a) :
    (l'.map w).sum ≤ (l.map w).sum := by
  induction h with
  | nil => exact Nat.zero_le _
  | cons hb _ ih =>
    have := hw _ _ hb
    simp only [List.map_cons, List.sum_cons]
    omega
  | cons_right _ ih =>
    simp only [List.map_cons, List.sum_cons]
    omega

end Thinned
