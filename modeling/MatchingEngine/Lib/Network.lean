import MatchingEngine.Lib.Run
import Mathlib.Order.WellFounded

/-!
# Machines joined by bounded channels

A network is a machine whose steps are steps of its parts; what a step puts out says what
happened, so the outputs of a run are its **history**. A bounded channel holds what was sent
and not yet received; a send into a full one and a receive from an empty one wait.

* `run_history_along`, `run_history`: what every step keeps, of the history so far and the state, holds at the end.
* `run_project`: if every step of the network is a run of a part, a run of the network is one too.
* `run_erase`: a run without steps nobody sees the effect of.
* `Chan.send_eq_some`, `Chan.recv_eq_some`: the two ends of a channel.
* `wellFounded_of_measure`: a network's own steps end if each of them leaves less to do.
-/

section Histories

variable {σ ι ω ε : Type*} {step : σ → ι → Except ε (σ × ω)} {s s' : σ} {is : List ι} {os : List ω}

theorem foldl_snoc {α : Type*} (l m : List α) : l.foldl (fun m x => m ++ [x]) m = m ++ l := by
  induction l generalizing m with
  | nil => rw [List.foldl_nil, List.append_nil]
  | cons x l ih => rw [List.foldl_cons, ih, List.append_assoc, List.singleton_append]

/-- **Invariants of histories.** -/
theorem run_history_along {C : σ → ι → Prop} (Inv : List ω → σ → Prop)
    (hstep : ∀ h s i s' o, Inv h s → C s i → step s i = .ok (s', o) → Inv (h ++ [o]) s')
    (h0 : Inv [] s) (hC : Along step C s is) (h : run step s is = .ok (s', os)) : Inv os s' := by
  have ht := run_fold (f := fun h o => h ++ [o]) Inv hstep h0 hC h
  rwa [foldl_snoc, List.nil_append] at ht

/-- The same whatever the inputs. -/
theorem run_history (Inv : List ω → σ → Prop)
    (hstep : ∀ h s i s' o, Inv h s → step s i = .ok (s', o) → Inv (h ++ [o]) s')
    (h0 : Inv [] s) (h : run step s is = .ok (s', os)) : Inv os s' :=
  run_history_along (C := fun _ _ => True) Inv (fun h s i s' o hi _ hs => hstep h s i s' o hi hs) h0
    (along_of_forall (Q := fun _ => True) fun _ _ => trivial) h

variable {τ ι' ω' ε' : Type*} {part : τ → ι' → Except ε' (τ × ω')} {f : ω → List ι'} {g : ω → List ω'}

/-- **A run of the network is a run of each part**, on the inputs that reach the part. -/
theorem run_project (proj : σ → τ) (Inv : σ → Prop)
    (hstep : ∀ s i s' o, Inv s → step s i = .ok (s', o) →
      Inv s' ∧ run part (proj s) (f o) = .ok (proj s', g o))
    (h0 : Inv s) (h : run step s is = .ok (s', os)) :
    run part (proj s) (os.flatMap f) = .ok (proj s', os.flatMap g) := by
  induction is generalizing s os with
  | nil =>
    simp only [run_nil, Except.ok.injEq, Prod.mk.injEq] at h
    obtain ⟨rfl, rfl⟩ := h
    rfl
  | cons i is ih =>
    obtain ⟨s₁, o, os', h1, h2, rfl⟩ := run_cons_inv h
    obtain ⟨hinv, hpart⟩ := hstep s i s₁ o h0 h1
    rw [List.flatMap_cons, List.flatMap_cons]
    exact run_append_ok hpart (ih hinv h2)

/-- **Steps that do not show**: if hidden steps keep a relation by themselves and the others have a match that
puts out the same, a run without its hidden steps is a run too, and puts out what shows. -/
theorem run_erase {hidden : ι → Bool} {shows : ω → Bool} {R : σ → σ → Prop}
    (hhidden : ∀ s t i s' o, R s t → hidden i = true → step s i = .ok (s', o) → R s' t ∧ shows o = false)
    (hshown : ∀ s t i s' o, R s t → hidden i = false → step s i = .ok (s', o) →
      ∃ t', step t i = .ok (t', o) ∧ R s' t' ∧ shows o = true)
    {t : σ} (h0 : R s t) (h : run step s is = .ok (s', os)) :
    ∃ t', run step t (is.filter (fun i => !hidden i)) = .ok (t', os.filter shows) ∧ R s' t' := by
  induction is generalizing s t os with
  | nil =>
    simp only [run_nil, Except.ok.injEq, Prod.mk.injEq] at h
    obtain ⟨rfl, rfl⟩ := h
    exact ⟨t, rfl, h0⟩
  | cons i is ih =>
    obtain ⟨s₁, o, os', h1, h2, rfl⟩ := run_cons_inv h
    cases hi : hidden i with
    | true =>
      obtain ⟨hrel, ho⟩ := hhidden s t i s₁ o h0 hi h1
      rw [List.filter_cons_of_neg (by simp [hi]), List.filter_cons_of_neg (by simp [ho])]
      exact ih hrel h2
    | false =>
      obtain ⟨t₁, ht₁, hrel, ho⟩ := hshown s t i s₁ o h0 hi h1
      obtain ⟨t', hrun, hend⟩ := ih hrel h2
      rw [List.filter_cons_of_pos (by simp [hi]), List.filter_cons_of_pos ho]
      exact ⟨t', run_cons_ok ht₁ hrun, hend⟩

theorem run_singleton {t t' : τ} {i : ι'} {o : ω'} (h : part t i = .ok (t', o)) : run part t [i] = .ok (t', [o]) :=
  run_cons_ok h rfl

end Histories

section Channels

/-- A bounded channel: what was sent and not yet received, oldest first. -/
structure Chan (α : Type*) (capacity : ℕ) where
  items : List α
  bounded : items.length ≤ capacity

namespace Chan

variable {α : Type*} {capacity : ℕ} {ch ch' : Chan α capacity} {x : α}

def empty : Chan α capacity := ⟨[], Nat.zero_le _⟩

/-- A send; there is none while the channel is full. -/
def send (ch : Chan α capacity) (x : α) : Option (Chan α capacity) :=
  if h : ch.items.length < capacity then
    some ⟨ch.items ++ [x], by rw [List.length_append, List.length_singleton]; omega⟩
  else none

/-- A receive; there is none while the channel is empty. -/
def recv (ch : Chan α capacity) : Option (α × Chan α capacity) :=
  match h : ch.items with
  | [] => none
  | x :: items => some (x, ⟨items, by have hb := ch.bounded; rw [h, List.length_cons] at hb; omega⟩)

theorem send_eq_some (h : ch.send x = some ch') : ch'.items = ch.items ++ [x] := by
  unfold send at h
  split at h
  · cases h
    rfl
  · cases h

theorem send_of_lt (ch : Chan α capacity) (h : ch.items.length < capacity) (x : α) : ∃ ch', ch.send x = some ch' := by
  unfold send
  rw [dif_pos h]
  exact ⟨_, rfl⟩

theorem recv_eq_some (h : ch.recv = some (x, ch')) : ch.items = x :: ch'.items := by
  unfold recv at h
  split at h
  · cases h
  · next hitems =>
    cases h
    exact hitems

theorem recv_of_ne_nil (h : ch.items ≠ []) : ∃ x ch', ch.recv = some (x, ch') := by
  unfold recv
  split
  · next hitems => exact absurd hitems h
  · exact ⟨_, _, rfl⟩

/-- Several sends. -/
def sendAll (ch : Chan α capacity) (xs : List α) : Option (Chan α capacity) := xs.foldlM send ch

theorem sendAll_eq_some {xs : List α} (h : ch.sendAll xs = some ch') : ch'.items = ch.items ++ xs := by
  induction xs generalizing ch with
  | nil =>
    cases h
    rw [List.append_nil]
  | cons x xs ih =>
    obtain ⟨ch₁, hsend, hrest⟩ := Option.bind_eq_some_iff.1 h
    rw [ih hrest, send_eq_some hsend, List.append_assoc, List.singleton_append]

end Chan

end Channels

section Progress

variable {σ ι ω ε μ : Type*} {step : σ → ι → Except ε (σ × ω)} {own : ι → Prop} {Inv : σ → Prop}

/-- **Own steps end**: no schedule of a network's own steps goes on for ever, if each leaves less to do. -/
theorem wellFounded_of_measure [Preorder μ] [WellFoundedLT μ] (measure : σ → μ)
    (hless : ∀ s i s' o, Inv s → own i → step s i = .ok (s', o) → measure s' < measure s) :
    WellFounded (fun s' s => Inv s ∧ ∃ i o, own i ∧ step s i = .ok (s', o)) := by
  refine Subrelation.wf (fun {s' s} h => ?_) (InvImage.wf measure wellFounded_lt)
  obtain ⟨hinv, i, o, hown, hs⟩ := h
  exact hless s i s' o hinv hown hs

end Progress
