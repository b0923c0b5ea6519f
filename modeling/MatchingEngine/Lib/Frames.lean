import Mathlib.Data.List.Basic

/-!
# Self-delimiting frames

A format in which the first symbol of a frame fixes the frame's length: `len t` is
the length a frame opened by `t` has, `none` if no frame opens with `t`. A stream is
cut into whole frames from the left until it stops: at its end, inside a frame, or
at a symbol that opens none.

* `Cut`: the cut of a stream (`Cut.unique`); `Cut.resume`, `Cut.stuck`: more symbols arriving later.
* `Cut.drop_frames`: a cut begins with any whole frames the stream begins with.
* `Carries`: some frame of the stream has a property.
-/

section Frames

variable {α : Type*} (len : α → Option ℕ)

/-- A whole frame. -/
def IsFrame (f : List α) : Prop := ∃ t, f.head? = some t ∧ len t = some f.length

/-- Nothing, or a frame whose end is still missing. -/
def Unfinished (rest : List α) : Prop := ∀ t, rest.head? = some t → ∃ n, len t = some n ∧ rest.length < n

/-- A symbol that opens no frame. -/
def Unknown (rest : List α) : Prop := ∃ t, rest.head? = some t ∧ len t = none

/-- `b` is the frames `fs` and then `rest`, which does not begin with a whole frame. -/
structure Cut (b : List α) (fs : List (List α)) (rest : List α) : Prop where
  whole : ∀ f ∈ fs, IsFrame len f
  stops : Unfinished len rest ∨ Unknown len rest
  eq : fs.flatten ++ rest = b

/-- The stream holds, after whole frames, a whole frame with the property `p`. -/
def Carries (p : List α → Prop) (b : List α) : Prop :=
  ∃ (fs : List (List α)) (f rest : List α), (∀ g ∈ fs, IsFrame len g) ∧ IsFrame len f ∧ p f ∧ b = fs.flatten ++ f ++ rest

variable {len} {b c f rest : List α} {fs gs : List (List α)}

theorem IsFrame.ne_nil (h : IsFrame len f) : f ≠ [] := by
  obtain ⟨t, ht, -⟩ := h
  rintro rfl
  simp at ht

theorem IsFrame.head?_append (h : IsFrame len f) (r : List α) : (f ++ r).head? = f.head? := by
  cases f with
  | nil => exact absurd rfl h.ne_nil
  | cons a f => rfl

theorem Unknown.append (h : Unknown len rest) (c : List α) : Unknown len (rest ++ c) := by
  obtain ⟨t, ht, hn⟩ := h
  cases rest with
  | nil => simp at ht
  | cons a r => exact ⟨t, ht, hn⟩

theorem unfinished_nil : Unfinished len ([] : List α) := by
  intro t ht
  simp at ht

/-- **An unfinished frame is the beginning of one**, if there are frames at all. -/
theorem Unfinished.exists_frame (h : Unfinished len rest) (hf : IsFrame len f) :
    ∃ g, IsFrame len g ∧ rest <+: g ∧ rest ≠ g := by
  cases rest with
  | nil => exact ⟨f, hf, List.nil_prefix, hf.ne_nil.symm⟩
  | cons t rest =>
    obtain ⟨n, hn, hlt⟩ := h t rfl
    have hlen : ((t :: rest) ++ List.replicate (n - (t :: rest).length) t).length = n := by
      rw [List.length_append, List.length_replicate]
      omega
    refine ⟨(t :: rest) ++ List.replicate (n - (t :: rest).length) t, ⟨t, rfl, ?_⟩, List.prefix_append _ _, ?_⟩
    · rw [hlen, hn]
    · intro heq
      have hl := congrArg List.length heq
      omega

/-- What begins with a whole frame does not stop. -/
theorem IsFrame.not_stops (h : IsFrame len f) (r : List α) :
    ¬ (Unfinished len (f ++ r) ∨ Unknown len (f ++ r)) := by
  obtain ⟨t, ht, hn⟩ := h
  have hhead : (f ++ r).head? = some t := (IsFrame.head?_append ⟨t, ht, hn⟩ r).trans ht
  rintro (hu | ⟨t', ht', hn'⟩)
  · obtain ⟨n, hn', hlt⟩ := hu t hhead
    rw [hn] at hn'
    have hfn : f.length = n := Option.some.inj hn'
    rw [List.length_append] at hlt
    omega
  · rw [hhead] at ht'
    rw [← Option.some.inj ht', hn] at hn'
    exact absurd hn' (by simp)

/-- Two whole frames at the beginning of one stream are the same. -/
theorem IsFrame.unique {g r r' : List α} (hf : IsFrame len f) (hg : IsFrame len g) (h : f ++ r = g ++ r') :
    f = g ∧ r = r' := by
  refine List.append_inj h ?_
  have hhead : f.head? = g.head? := by rw [← hf.head?_append r, h, hg.head?_append]
  obtain ⟨t, ht, hn⟩ := hf
  obtain ⟨t', ht', hn'⟩ := hg
  have heq : t = t' := Option.some.inj (ht.symm.trans (hhead.trans ht'))
  rw [heq, hn'] at hn
  exact (Option.some.inj hn).symm

theorem Cut.nil (h : Unfinished len b ∨ Unknown len b) : Cut len b [] b :=
  ⟨fun _ hf => absurd hf List.not_mem_nil, h, rfl⟩

theorem Cut.cons (hf : IsFrame len f) (h : Cut len b fs rest) : Cut len (f ++ b) (f :: fs) rest := by
  refine ⟨?_, h.stops, ?_⟩
  · intro g hg
    rcases List.mem_cons.1 hg with rfl | hg
    · exact hf
    · exact h.whole g hg
  · rw [List.flatten_cons, List.append_assoc, h.eq]

/-- **More symbols after an unfinished frame** continue the cut where it stopped. -/
theorem Cut.resume {rest' : List α} (h : Cut len b fs rest) (h' : Cut len (rest ++ c) gs rest') :
    Cut len (b ++ c) (fs ++ gs) rest' := by
  refine ⟨?_, h'.stops, ?_⟩
  · intro f hf
    rcases List.mem_append.1 hf with hf | hf
    · exact h.whole f hf
    · exact h'.whole f hf
  · rw [List.flatten_append, List.append_assoc, h'.eq, ← List.append_assoc, h.eq]

/-- **More symbols after an unknown one** change nothing. -/
theorem Cut.stuck (h : Cut len b fs rest) (hu : Unknown len rest) (c : List α) : Cut len (b ++ c) fs (rest ++ c) :=
  ⟨h.whole, .inr (hu.append c), by rw [← List.append_assoc, h.eq]⟩

/-- A cut begins with any whole frames the stream begins with. -/
theorem Cut.drop_frames (h : Cut len b fs rest) (hgs : ∀ g ∈ gs, IsFrame len g) (hb : b = gs.flatten ++ c) :
    ∃ fs', fs = gs ++ fs' ∧ Cut len c fs' rest := by
  induction gs generalizing b fs with
  | nil =>
    have hbc : b = c := hb
    exact ⟨fs, rfl, hbc ▸ h⟩
  | cons g gs ih =>
    have hg := hgs g List.mem_cons_self
    rw [List.flatten_cons, List.append_assoc] at hb
    cases fs with
    | nil =>
      -- the cut stopped at once, but `b` begins with the frame `g`
      have hrest : rest = b := h.eq
      have hstops := h.stops
      rw [hrest, hb] at hstops
      exact absurd hstops (hg.not_stops _)
    | cons f fs =>
      have hf := h.whole f List.mem_cons_self
      have heq : f ++ (fs.flatten ++ rest) = g ++ (gs.flatten ++ c) := by
        rw [← hb, ← h.eq, List.flatten_cons, List.append_assoc]
      obtain ⟨rfl, htail⟩ := hf.unique hg heq
      obtain ⟨fs', rfl, hcut⟩ := ih ⟨fun k hk => h.whole k (List.mem_cons_of_mem _ hk), h.stops, rfl⟩
        (fun k hk => hgs k (List.mem_cons_of_mem _ hk)) htail
      exact ⟨fs', rfl, hcut⟩

/-- **A stream has one cut.** -/
theorem Cut.unique {rest' : List α} (h : Cut len b fs rest) (h' : Cut len b gs rest') : fs = gs ∧ rest = rest' := by
  obtain ⟨fs', rfl, hcut⟩ := h.drop_frames h'.whole h'.eq.symm
  cases fs' with
  | nil => exact ⟨List.append_nil _, hcut.eq⟩
  | cons f fs' =>
    -- what stopped the other cut would begin with a whole frame
    have hstops := h'.stops
    rw [← hcut.eq, List.flatten_cons, List.append_assoc] at hstops
    exact absurd hstops ((hcut.whole f List.mem_cons_self).not_stops _)

/-- **A stream of whole frames cut short** is cut into those that are left whole and the beginning of the
next. -/
theorem Cut.of_prefix (hfs : ∀ f ∈ fs, IsFrame len f) (hb : b <+: fs.flatten) :
    ∃ k rest, k ≤ fs.length ∧ Cut len b (fs.take k) rest ∧ Unfinished len rest := by
  -- frame by frame, as long as the next one fits into `b`
  induction fs generalizing b with
  | nil =>
    have hnil : b = [] := List.prefix_nil.1 hb
    subst hnil
    exact ⟨0, [], Nat.le_refl _, .nil (.inl unfinished_nil), unfinished_nil⟩
  | cons f fs ih =>
    obtain ⟨hf, hrest⟩ := List.forall_mem_cons.1 hfs
    rw [List.flatten_cons] at hb
    by_cases hle : f.length ≤ b.length
    · -- the first frame is whole
      obtain ⟨c, rfl⟩ := List.prefix_of_prefix_length_le (List.prefix_append f _) hb hle
      obtain ⟨k, rest, hk, hcut, hu⟩ := ih hrest ((List.prefix_append_right_inj f).1 hb)
      refine ⟨k + 1, rest, ?_, hcut.cons hf, hu⟩
      rw [List.length_cons]
      omega
    · have hpre : b <+: f := List.prefix_of_prefix_length_le hb (List.prefix_append f _) (by omega)
      have hu : Unfinished len b := by
        intro t ht
        obtain ⟨t', ht', hn⟩ := hf
        obtain ⟨c, rfl⟩ := hpre
        cases b with
        | nil => simp at ht
        | cons x b =>
          have htt : t = t' := Option.some.inj (ht.symm.trans ht')
          exact ⟨_, htt ▸ hn, by omega⟩
      exact ⟨0, b, Nat.zero_le _, .nil (.inl hu), hu⟩

/-- A stream has at most as many frames as symbols. -/
theorem Cut.length_le (h : Cut len b fs rest) : fs.length ≤ b.length := by
  have hne : ∀ f ∈ fs, 1 ≤ f.length := fun f hf => List.length_pos_iff.2 (h.whole f hf).ne_nil
  have hall : fs.length ≤ fs.flatten.length := by
    clear h
    induction fs with
    | nil => exact Nat.le_refl _
    | cons f fs ih =>
      obtain ⟨hf, hfs⟩ := List.forall_mem_cons.1 hne
      have hrest := ih hfs
      rw [List.length_cons, List.flatten_cons, List.length_append]
      omega
  rw [← h.eq, List.length_append]
  omega

/-- **A stream carries what a frame of its cut is.** -/
theorem Cut.carries_iff {p : List α → Prop} (h : Cut len b fs rest) : Carries len p b ↔ ∃ f ∈ fs, p f := by
  constructor
  · rintro ⟨gs, g, r, hgs, hg, hp, hb⟩
    have hwhole : ∀ k ∈ gs ++ [g], IsFrame len k := by
      intro k hk
      rcases List.mem_append.1 hk with hk | hk
      · exact hgs k hk
      · exact List.mem_singleton.1 hk ▸ hg
    obtain ⟨fs', rfl, -⟩ := h.drop_frames hwhole (c := r) (by rw [hb]; simp)
    exact ⟨g, by simp, hp⟩
  · rintro ⟨f, hf, hp⟩
    obtain ⟨pre, post, rfl⟩ := List.append_of_mem hf
    refine ⟨pre, f, post.flatten ++ rest, fun g hg => h.whole g (by simp [hg]), h.whole f (by simp), hp, ?_⟩
    rw [← h.eq, List.flatten_append, List.flatten_cons, List.append_assoc, List.append_assoc, List.append_assoc]

end Frames
