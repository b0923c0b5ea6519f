import Mathlib.Tactic

/-!
# Lists with distinct keys

A list whose elements have pairwise different keys, and what removing or looking up
one key does to it.

* `sum_by_key`: a sum taken key by key is the whole sum.
-/

section Keyed

variable {α κ : Type*} {f : α → κ} {l pre post : List α} {a b : α}

theorem key_inj_of_nodup (h : (l.map f).Nodup) (ha : a ∈ l) (hb : b ∈ l) (he : f a = f b) : a = b :=
  List.inj_on_of_nodup_map h ha hb he

/-- Changing elements without touching their keys keeps the keys. -/
theorem map_key_congr {g : α → α} (hg : ∀ a, f (g a) = f a) : (l.map g).map f = l.map f := by
  rw [List.map_map]
  exact List.map_congr_left (fun a _ => hg a)

variable [DecidableEq κ]

theorem filter_key_of_notMem (h : f a ∉ l.map f) : l.filter (fun b => f b ≠ f a) = l := by
  rw [List.filter_eq_self]
  intro b hb
  simp only [ne_eq, decide_not, Bool.not_eq_eq_eq_not, Bool.not_true, decide_eq_false_iff_not]
  intro he
  exact h (he ▸ List.mem_map_of_mem hb)

/-- Removing a key cuts the element out. -/
theorem filter_key_split (h : ((pre ++ a :: post).map f).Nodup) :
    (pre ++ a :: post).filter (fun b => f b ≠ f a) = pre ++ post := by
  rw [List.map_append, List.map_cons, List.nodup_middle, List.nodup_cons] at h
  have hn : f a ∉ pre.map f ∧ f a ∉ post.map f := by simpa [not_or] using h.1
  rw [List.filter_append, List.filter_cons, filter_key_of_notMem hn.1, filter_key_of_notMem hn.2]
  simp

/-- Putting an element first permutes the list. -/
theorem perm_cons_filter (h : (l.map f).Nodup) (ha : a ∈ l) : l.Perm (a :: l.filter (fun b => f b ≠ f a)) := by
  obtain ⟨pre, post, rfl⟩ := List.append_of_mem ha
  rw [filter_key_split h]
  exact List.perm_middle

/-- Changing the element under a key changes it where it stands. -/
theorem map_key_split {g : α → α} (h : ((pre ++ a :: post).map f).Nodup) :
    (pre ++ a :: post).map (fun b => if f b = f a then g b else b) = pre ++ g a :: post := by
  rw [List.map_append, List.map_cons, List.nodup_middle, List.nodup_cons] at h
  have hn : f a ∉ pre.map f ∧ f a ∉ post.map f := by simpa [not_or] using h.1
  have hid : ∀ m : List α, f a ∉ m.map f → m.map (fun b => if f b = f a then g b else b) = m := by
    intro m hm
    refine (List.map_congr_left fun b hb => ?_).trans (List.map_id m)
    have hne : f b ≠ f a := fun he => hm (he ▸ List.mem_map_of_mem hb)
    rw [if_neg hne, id]
  rw [List.map_append, List.map_cons, hid pre hn.1, hid post hn.2, if_pos rfl]

theorem find?_key (h : (l.map f).Nodup) (ha : a ∈ l) : l.find? (fun b => f b = f a) = some a := by
  cases hf : l.find? (fun b => f b = f a) with
  | none =>
    rw [List.find?_eq_none] at hf
    exact absurd (hf a ha) (by simp)
  | some b =>
    have hb : f b = f a := by simpa using List.find?_some hf
    rw [key_inj_of_nodup h (List.mem_of_find?_eq_some hf) ha hb]

/-- **A sum taken key by key is the whole sum**, if every key is counted once. -/
theorem sum_by_key {ks : List κ} (hks : ks.Nodup) (hmem : ∀ a ∈ l, f a ∈ ks) (w : α → ℕ) :
    (ks.map (fun k => ((l.filter (fun a => f a = k)).map w).sum)).sum = (l.map w).sum := by
  induction ks generalizing l with
  | nil =>
    cases l with
    | nil => rfl
    | cons a l => exact absurd (hmem a List.mem_cons_self) List.not_mem_nil
  | cons k ks ih =>
    obtain ⟨hk, hks⟩ := List.nodup_cons.1 hks
    -- the other keys are those of the elements without key `k`
    have hrest : ks.map (fun k' => ((l.filter (fun a => f a = k')).map w).sum) =
        ks.map (fun k' => (((l.filter (fun a => ¬ f a = k)).filter (fun a => f a = k')).map w).sum) := by
      refine List.map_congr_left (fun k' hk' => ?_)
      rw [List.filter_filter]
      congr 2
      refine List.filter_congr (fun a _ => ?_)
      by_cases he : f a = k'
      · have hne : f a ≠ k := fun h => hk (h ▸ he ▸ hk')
        simp [he, he ▸ hne]
      · simp [he]
    have hmem' : ∀ a ∈ l.filter (fun a => ¬ f a = k), f a ∈ ks := by
      intro a ha
      obtain ⟨ha, hne⟩ := List.mem_filter.1 ha
      exact (List.mem_cons.1 (hmem a ha)).resolve_left (of_decide_eq_true hne)
    rw [List.map_cons, List.sum_cons, hrest, ih hks hmem']
    have hperm := (List.filter_append_perm (fun a => decide (f a = k)) l).map w
    rw [← hperm.sum_eq, List.map_append, List.sum_append]
    simp

end Keyed
