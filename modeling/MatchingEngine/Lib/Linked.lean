import Mathlib.Data.List.Basic
import Mathlib.Data.List.Induction

/-!
# Doubly linked chains

`Linked prev next c`: the links `prev` and `next` thread exactly the list `c`,
each element pointing back to the one before it and forward to the one after.

* `Linked.push`: appending at the tail writes two links.
* `Linked.remove`: unlinking an element joins its two neighbours.
* `Linked.follow`: following `next` from the head visits the chain and stops.
* `BackLinked.nodup`: back links alone keep a walk from visiting anything twice.
-/

section Linked

variable {α : Type*}

/-- The links thread the list `c`. -/
def Linked (prev next : α → Option α) (c : List α) : Prop :=
  ∀ pre x post, c = pre ++ x :: post → prev x = pre.getLast? ∧ next x = post.head?

variable {prev next prev' next' : α → Option α} {c pre post : List α} {x : α}

theorem linked_nil : Linked prev next [] := by
  intro pre x post h
  simp at h

theorem Linked.at (h : Linked prev next (pre ++ x :: post)) :
    prev x = pre.getLast? ∧ next x = post.head? := h pre x post rfl

/-- Links that agree on the chain thread it too. -/
theorem Linked.congr (h : Linked prev next c) (hp : ∀ y ∈ c, prev' y = prev y)
    (hn : ∀ y ∈ c, next' y = next y) : Linked prev' next' c := by
  intro pre x post hc
  have hx : x ∈ c := by rw [hc]; simp
  rw [hp x hx, hn x hx]
  exact h pre x post hc

/-- **Appending at the tail.** The new element points back to the old tail, the
old tail forward to it. -/
theorem Linked.push [DecidableEq α] (h : Linked prev next c) (hx : x ∉ c) (hnd : c.Nodup)
    (hpx : prev' x = c.getLast?) (hnx : next' x = none) (hp : ∀ y ∈ c, prev' y = prev y)
    (hn : ∀ y ∈ c, next' y = if c.getLast? = some y then some x else next y) :
    Linked prev' next' (c ++ [x]) := by
  intro pre y post hc
  rcases List.append_eq_append_iff.1 hc with ⟨m, hpre, hpost⟩ | ⟨m, hpre, hpost⟩
  · -- `y` is the new element
    obtain ⟨rfl, hy, rfl⟩ : m = [] ∧ x = y ∧ post = [] := by
      cases m with
      | nil => simpa using hpost
      | cons z m => simp at hpost
    subst hy
    simp only [List.append_nil] at hpre
    rw [hpx, hnx, hpre]
    simp
  · cases m with
    | nil =>
      simp only [List.nil_append, List.cons.injEq] at hpost
      obtain ⟨rfl, rfl⟩ := hpost
      simp only [List.append_nil] at hpre
      rw [hpx, hnx, hpre]
      simp
    | cons z m =>
      -- `y` is an old element, and the old tail exactly when nothing of `c` follows it
      simp only [List.cons_append, List.cons.injEq] at hpost
      obtain ⟨rfl, hpost⟩ := hpost
      have hyc : y ∈ c := by rw [hpre]; simp
      obtain ⟨h1, h2⟩ := h pre y m hpre
      refine ⟨by rw [hp y hyc, h1], ?_⟩
      rw [hn y hyc, hpost, hpre]
      cases m with
      | nil => simp
      | cons z m =>
        have hne : (pre ++ y :: z :: m).getLast? ≠ some y := by
          intro he
          rw [hpre] at hnd
          have hmem : y ∈ z :: m := by
            rw [List.getLast?_append_cons, List.getLast?_cons_cons] at he
            exact List.mem_of_getLast? he
          have := (List.nodup_cons.1 (List.nodup_append.1 hnd).2.1).1
          exact this hmem
        rw [if_neg hne, h2]
        simp

/-- **Unlinking an element.** Its predecessor takes over its `next`, its successor
its `prev`. -/
theorem Linked.remove [DecidableEq α] (h : Linked prev next (pre ++ x :: post)) (hnd : (pre ++ x :: post).Nodup)
    (hp : ∀ y ∈ pre ++ post, prev' y = if next x = some y then prev x else prev y)
    (hn : ∀ y ∈ pre ++ post, next' y = if prev x = some y then next x else next y) :
    Linked prev' next' (pre ++ post) := by
  obtain ⟨hpx, hnx⟩ := h.at
  have hnd' := List.nodup_append.1 hnd
  have hdisj : ∀ a ∈ pre, ∀ b ∈ x :: post, a ≠ b := hnd'.2.2
  intro l y r hsplit
  have hy : y ∈ pre ++ post := by rw [hsplit]; simp
  rw [hp y hy, hn y hy, hpx, hnx]
  -- where `y` stands relative to the hole decides which of its links moved
  rcases List.append_eq_append_iff.1 hsplit with ⟨m, rfl, rfl⟩ | ⟨m, rfl, hpost⟩
  · -- `y` comes after `x`
    obtain ⟨h1, h2⟩ := h (pre ++ x :: m) y r (by simp)
    have hyp : pre.getLast? ≠ some y := fun he =>
      hdisj y (List.mem_of_getLast? he) y (by simp) rfl
    rw [if_neg hyp, h1, h2]
    refine ⟨?_, rfl⟩
    cases m with
    | nil => simp
    | cons z m =>
      have hzy : z ≠ y := by
        rintro rfl
        have := (List.nodup_cons.1 (List.nodup_cons.1 hnd'.2.1).2).1
        simp at this
      have hne : ((z :: m) ++ y :: r).head? ≠ some y := by simpa using hzy
      rw [if_neg hne]
      simp
  · -- `y` comes before `x`
    cases m with
    | nil =>
      simp only [List.nil_append] at hpost
      subst hpost
      obtain ⟨h1, h2⟩ := h (l ++ [x]) y r (by simp)
      simp only [List.append_nil] at hpx hdisj ⊢
      have hyp : l.getLast? ≠ some y := fun he =>
        hdisj y (List.mem_of_getLast? he) y (by simp) rfl
      rw [if_neg hyp, h2]
      simp
    | cons z m =>
      simp only [List.cons_append, List.cons.injEq] at hpost
      obtain ⟨rfl, rfl⟩ := hpost
      obtain ⟨h1, h2⟩ := h l y (m ++ x :: post) (by simp)
      have hyn : post.head? ≠ some y := fun he =>
        hdisj y (by simp) y (List.mem_cons_of_mem _ (List.mem_of_head? he)) rfl
      rw [if_neg hyn, h1, h2]
      refine ⟨rfl, ?_⟩
      cases m with
      | nil => simp
      | cons z m =>
        have hne : (l ++ y :: z :: m).getLast? ≠ some y := by
          intro he
          rw [List.getLast?_append_cons, List.getLast?_cons_cons] at he
          have := (List.nodup_cons.1 (List.nodup_append.1 hnd'.1).2.1).1
          exact this (List.mem_of_getLast? he)
        rw [if_neg hne]
        simp

/-- Follow `next` for at most `n` elements. -/
def followFrom (next : α → Option α) : ℕ → Option α → List α
  | 0, _ => []
  | _ + 1, none => []
  | n + 1, some x => x :: followFrom next n (next x)

/-- **Following `next` from the head visits the chain and stops.** -/
theorem Linked.follow (h : Linked prev next c) {n : ℕ} (hn : c.length ≤ n) :
    followFrom next n c.head? = c := by
  have key : ∀ (post pre : List α) (n : ℕ), c = pre ++ post → post.length ≤ n →
      followFrom next n post.head? = post := by
    intro post
    induction post with
    | nil => intro pre n _ _; cases n <;> rfl
    | cons x post ih =>
      intro pre n hc hn
      obtain ⟨m, rfl⟩ : ∃ m, n = m + 1 := ⟨n - 1, by simp at hn; omega⟩
      simp only [List.head?_cons, followFrom]
      rw [(h pre x post hc).2, ih (pre ++ [x]) m (by simp [hc]) (by simpa using hn)]
  exact key c [] n rfl hn

/-- Each element of `c` points back to the one before it, the first to none. -/
def BackLinked (prev : α → Option α) (c : List α) : Prop :=
  ∀ pre x post, c = pre ++ x :: post → prev x = pre.getLast?

theorem backLinked_nil : BackLinked prev [] := by
  intro pre x post h
  simp at h

/-- An element of a walk one longer is the new one, or an old one that the new one comes after. -/
theorem split_snoc {y : α} (h : c ++ [x] = pre ++ y :: post) :
    (c = pre ∧ x = y ∧ post = []) ∨ ∃ m, post = m ++ [x] ∧ c = pre ++ y :: m := by
  rcases List.eq_nil_or_concat post with rfl | ⟨m, z, rfl⟩
  · obtain ⟨hc, hy⟩ := List.append_inj' h rfl
    exact .inl ⟨hc, by simpa using hy, rfl⟩
  · rw [List.concat_eq_append, ← List.cons_append, ← List.append_assoc] at h
    obtain ⟨hc, hz⟩ := List.append_inj' h rfl
    obtain rfl : x = z := by simpa using hz
    exact .inr ⟨m, List.concat_eq_append, hc⟩

/-- A walk goes on along a matching back link. -/
theorem BackLinked.push (h : BackLinked prev c) (hx : prev x = c.getLast?) : BackLinked prev (c ++ [x]) := by
  intro pre y post hc
  rcases split_snoc hc with ⟨rfl, rfl, -⟩ | ⟨m, -, hc⟩
  · exact hx
  · exact h pre y m hc

/-- **A back-linked walk visits nothing twice.** Coming back to an element would give it a second
predecessor, or the head a first one. -/
theorem BackLinked.nodup (h : BackLinked prev c) : c.Nodup := by
  induction c using List.reverseRecOn with
  | nil => exact List.nodup_nil
  | append_singleton c x ih =>
    have hc : BackLinked prev c := by
      intro pre y post he
      exact h pre y (post ++ [x]) (by rw [he]; simp)
    have hnd := ih hc
    refine List.nodup_append.2 ⟨hnd, by simp, ?_⟩
    rintro y hy z hz rfl
    obtain rfl : y = x := by simpa using hz
    obtain ⟨pre, post, rfl⟩ := List.append_of_mem hy
    -- both occurrences name their predecessor: the last before the first one, and the last of `c`
    have h1 : prev y = pre.getLast? := hc pre y post rfl
    have h2 : prev y = (pre ++ y :: post).getLast? := h _ y [] rfl
    obtain ⟨w, hw⟩ : ∃ w, (y :: post).getLast? = some w := ⟨_, List.getLast?_eq_some_getLast (by simp)⟩
    rw [List.getLast?_append, hw, Option.some_or, h1] at h2
    exact (List.nodup_append.1 hnd).2.2 w (List.mem_of_getLast? h2) w (List.mem_of_getLast? hw) rfl

end Linked
