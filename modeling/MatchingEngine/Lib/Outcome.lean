import Mathlib.Data.List.Basic

/-!
# Computations that refuse, and computations that crash

A computation of type `ExceptT ε (Except π) α` ends in one of three ways: with a value,
with a refusal `ε` its caller handles, or with a crash `π` nobody handles. `Returns x Q`
says that `x` does not crash and that its value, if it ends with one, satisfies `Q`; the
rules below compose it along a computation. `run_bind_ok` says how a computation ends with
a given value, one step at a time. `foldlM_record` is about a loop whose body may
crash. `Refined x y` compares two computations that only return or crash: `y` returns
whatever `x` returns.
-/

section Returns

universe u v

variable {ε α β : Type u} {π : Type v} {Q R : α → Prop} {S : β → Prop}

/-- No crash, and `Q` of the value. -/
def Returns (x : ExceptT ε (Except π) α) (Q : α → Prop) : Prop :=
  ∃ r : Except ε α, x.run = .ok r ∧ ∀ a, r = .ok a → Q a

namespace Returns

variable {x y : ExceptT ε (Except π) α} {f : α → ExceptT ε (Except π) β} {a : α}

theorem pure (h : Q a) : Returns (pure a : ExceptT ε (Except π) α) Q :=
  ⟨.ok a, rfl, fun _ h' => Except.ok.inj h' ▸ h⟩

theorem throw (e : ε) : Returns (throw e : ExceptT ε (Except π) α) Q :=
  ⟨.error e, rfl, fun _ h => by simp at h⟩

/-- **The rule of sequence.** -/
theorem bind (hx : Returns x Q) (hf : ∀ a, Q a → Returns (f a) S) : Returns (x >>= f) S := by
  obtain ⟨r, hr, hq⟩ := hx
  cases r with
  | error e =>
    refine ⟨.error e, ?_, fun _ h => by simp at h⟩
    rw [ExceptT.run_bind, hr]
    rfl
  | ok a =>
    obtain ⟨r', hr', hs⟩ := hf a (hq a rfl)
    refine ⟨r', ?_, hs⟩
    rw [ExceptT.run_bind, hr]
    exact hr'

theorem ite {c : Prop} [Decidable c] (hx : c → Returns x Q) (hy : ¬ c → Returns y Q) :
    Returns (if c then x else y) Q := by
  split
  · next h => exact hx h
  · next h => exact hy h

end Returns

end Returns

section Value

universe u v

variable {ε α β : Type u} {π : Type v} {x : ExceptT ε (Except π) α} {f : α → ExceptT ε (Except π) β} {a : α} {b : β}

/-- How a sequence ends with a value. -/
theorem run_bind_ok : (x >>= f).run = .ok (.ok b) ↔ ∃ a, x.run = .ok (.ok a) ∧ (f a).run = .ok (.ok b) := by
  rw [ExceptT.run_bind]
  cases x.run with
  | error p =>
    constructor
    · intro h
      cases h
    · rintro ⟨a, h, -⟩
      cases h
  | ok r =>
    cases r with
    | error e =>
      constructor
      · intro h
        cases h
      · rintro ⟨a, h, -⟩
        cases h
    | ok a =>
      constructor
      · intro h
        exact ⟨a, rfl, h⟩
      · rintro ⟨a', ha, h⟩
        cases ha
        exact h

theorem run_pure_ok {a' : α} : (pure a : ExceptT ε (Except π) α).run = .ok (.ok a') ↔ a' = a := by
  constructor
  · intro h
    cases h
    rfl
  · rintro rfl
    rfl

/-- A refusal guarding a computation. -/
theorem run_guard_ok {c : Prop} [Decidable c] {e : ε} :
    (if c then throw e else x).run = .ok (.ok a) ↔ ¬ c ∧ x.run = .ok (.ok a) := by
  by_cases hc : c
  · rw [if_pos hc]
    constructor
    · intro h
      cases h
    · rintro ⟨hn, -⟩
      exact absurd hc hn
  · rw [if_neg hc]
    exact ⟨fun h => ⟨hc, h⟩, fun h => h.2⟩

end Value

section Fold

universe u v w

variable {ι : Type u} {σ ρ τ : Type v} {π : Type w} {x : ι → Except π ρ} {k : σ → ρ → σ} {g : σ → τ}

/-- **A loop that computes and then records**: it succeeds if every computation does. -/
theorem foldlM_record (s : σ) (t : τ) (is : List ι) :
    (is.foldlM (fun s i => x i >>= fun r => pure (k s r)) s >>= fun s => pure (g s)) = .ok t ↔
      ∃ rs, List.Forall₂ (fun i r => x i = .ok r) is rs ∧ t = g (rs.foldl k s) := by
  induction is generalizing s with
  | nil =>
    constructor
    · intro h
      exact ⟨[], .nil, (Except.ok.inj h).symm⟩
    · rintro ⟨rs, hrs, rfl⟩
      cases hrs
      rfl
  | cons i is ih =>
    rw [List.foldlM_cons]
    cases hi : x i with
    | error e =>
      constructor
      · intro h
        cases h
      · rintro ⟨rs, hrs, -⟩
        cases hrs with
        | cons hr _ =>
          rw [hi] at hr
          cases hr
    | ok r =>
      refine (ih (k s r)).trans ⟨?_, ?_⟩
      · rintro ⟨rs, hrs, ht⟩
        exact ⟨r :: rs, .cons hi hrs, ht⟩
      · rintro ⟨rs, hrs, ht⟩
        cases hrs with
        | cons hr hrs =>
          rw [hi] at hr
          cases hr
          exact ⟨_, hrs, ht⟩

/-- A computation whose values are the images of the `r` with `D r` returns exactly when there is one. -/
theorem exists_ok_iff {y : Except π τ} {D : ρ → Prop} {v : ρ → τ} (h : ∀ t, y = .ok t ↔ ∃ r, D r ∧ t = v r) :
    (∃ t, y = .ok t) ↔ ∃ r, D r := by
  constructor
  · rintro ⟨t, ht⟩
    obtain ⟨r, hr, -⟩ := (h t).1 ht
    exact ⟨r, hr⟩
  · rintro ⟨r, hr⟩
    exact ⟨v r, (h _).2 ⟨r, hr, rfl⟩⟩

theorem forall₂_ok_iff (is : List ι) :
    (∃ rs, List.Forall₂ (fun i r => x i = .ok r) is rs) ↔ ∀ i ∈ is, ∃ r, x i = .ok r := by
  induction is with
  | nil => exact ⟨fun _ i hi => absurd hi List.not_mem_nil, fun _ => ⟨[], .nil⟩⟩
  | cons i is ih =>
    rw [List.forall_mem_cons, ← ih]
    constructor
    · rintro ⟨rs, hrs⟩
      cases hrs with
      | cons hr hrs => exact ⟨⟨_, hr⟩, _, hrs⟩
    · rintro ⟨⟨r, hr⟩, rs, hrs⟩
      exact ⟨r :: rs, .cons hr hrs⟩

end Fold

section Refined

variable {ε α β : Type} {x y : Except ε α} {f g : α → Except ε β}

/-- What `x` returns, `y` returns too. -/
def Refined (x y : Except ε α) : Prop := ∀ v, x = .ok v → y = .ok v

namespace Refined

theorem refl (x : Except ε α) : Refined x x := fun _ h => h

theorem error (e : ε) (y : Except ε α) : Refined (.error e) y := fun v hv => by cases hv

/-- **The rule of sequence.** -/
theorem bind (h : Refined x y) (hf : ∀ a, Refined (f a) (g a)) : Refined (x >>= f) (y >>= g) := by
  intro v hv
  cases x with
  | error e => cases hv
  | ok a =>
    rw [h a rfl]
    exact hf a v hv

theorem ite {c : Prop} [Decidable c] {x' y' : Except ε α} (h : Refined x y) (h' : Refined x' y') :
    Refined (if c then x else x') (if c then y else y') := by
  split
  · exact h
  · exact h'

end Refined

end Refined
