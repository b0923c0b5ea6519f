import Mathlib.Data.List.Basic

/-!
# Runs of a fallible state machine

`run step s is` feeds the inputs `is` to the machine one by one and collects
what each step puts out; the first failing step ends the run. `Along step C s is`
says that every step of that run is taken in a state and on an input that meet
`C`.

* `run_inv`: what every step preserves holds at the end of every run.
* `run_ok`: if every step succeeds and preserves it, the run succeeds too.
* `run_trace`: the same as `run_inv` for an observer that sees every input and output.
* `run_outputs`: what holds of everything a run puts out.
* `run_agree`: two machines that agree step by step agree on whole runs.
-/

section Run

variable {σ ι ω ε : Type*}

theorem exists_of_isOk {α : Type*} {x : Except ε α} (h : x.isOk = true) : ∃ a, x = .ok a := by
  cases x with
  | error e => simp [Except.isOk, Except.toBool] at h
  | ok a => exact ⟨a, rfl⟩

/-- A sequence that ends well ends well at its first step. -/
theorem exists_of_bind_ok {α β : Type} {x : Except ε α} {f : α → Except ε β} {b : β} (h : (x >>= f) = .ok b) :
    ∃ a, x = .ok a ∧ f a = .ok b := by
  cases x with
  | error e => simp [bind, Except.bind] at h
  | ok a => exact ⟨a, rfl, h⟩

theorem bind_of_ok {α β : Type} {x : Except ε α} {f : α → Except ε β} {a : α} (h : x = .ok a) : (x >>= f) = f a := by
  rw [h]
  rfl

theorem bind_of_error {α β : Type} {x : Except ε α} {f : α → Except ε β} {e : ε} (h : x = .error e) :
    (x >>= f) = .error e := by
  rw [h]
  rfl

/-- A computed result and what it satisfies. -/
theorem exists_ok_of_decide {α : Type*} {x : Except ε α} {p : α → Prop} [DecidablePred p]
    (h : (match x with | .ok a => decide (p a) | .error _ => false) = true) : ∃ a, x = .ok a ∧ p a := by
  cases x with
  | error e => simp at h
  | ok a => exact ⟨a, rfl, of_decide_eq_true h⟩

theorem error_of_map {α β : Type*} {x : Except ε α} {f : α → β} {e : ε} (h : x.map f = .error e) : x = .error e := by
  cases x with
  | error e' => exact congrArg Except.error (Except.error.inj h)
  | ok a => cases h

theorem exists_ok_of_map_toOption {α β : Type*} {x : Except ε α} {f : α → β} {v : β}
    (h : x.toOption.map f = some v) : ∃ a, x = .ok a ∧ f a = v := by
  cases x with
  | error e => simp [Except.toOption] at h
  | ok a => exact ⟨a, rfl, Option.some.inj h⟩

/-- Feed a list of inputs to the machine. -/
def run (step : σ → ι → Except ε (σ × ω)) : σ → List ι → Except ε (σ × List ω)
  | s, [] => .ok (s, [])
  | s, i :: is => do
    let (s', o) ← step s i
    let (s'', os) ← run step s' is
    pure (s'', o :: os)

/-- Every step of the run meets `C`. -/
def Along (step : σ → ι → Except ε (σ × ω)) (C : σ → ι → Prop) : σ → List ι → Prop
  | _, [] => True
  | s, i :: is => C s i ∧ ∀ s' o, step s i = .ok (s', o) → Along step C s' is

/-- Conditions along a concrete run can be evaluated. -/
instance Along.decidable (step : σ → ι → Except ε (σ × ω)) (C : σ → ι → Prop) [∀ s i, Decidable (C s i)] :
    ∀ s is, Decidable (Along step C s is)
  | _, [] => isTrue trivial
  | s, i :: is =>
    match h : step s i with
    | .error _ => decidable_of_iff (C s i) ⟨fun hc => ⟨hc, fun _ _ h' => by simp [h] at h'⟩, fun hc => hc.1⟩
    | .ok (s₁, o) =>
      haveI := Along.decidable step C s₁ is
      decidable_of_iff (C s i ∧ Along step C s₁ is)
        ⟨fun hc => ⟨hc.1, fun s' o' h' => by
            rw [h, Except.ok.injEq, Prod.mk.injEq] at h'
            exact h'.1 ▸ hc.2⟩,
          fun hc => ⟨hc.1, hc.2 s₁ o h⟩⟩

variable {step : σ → ι → Except ε (σ × ω)} {C : σ → ι → Prop} {s s' : σ} {i : ι} {is : List ι}
  {os : List ω}

@[simp] theorem run_nil : run step s [] = .ok (s, []) := rfl

theorem run_cons_ok {o : ω} {s₁ : σ} (h : step s i = .ok (s₁, o)) (h' : run step s₁ is = .ok (s', os)) :
    run step s (i :: is) = .ok (s', o :: os) := by
  simp only [run, h, h', bind, Except.bind, pure, Except.pure]

/-- The first step of a run that ends well. -/
theorem run_cons_inv {os : List ω} (h : run step s (i :: is) = .ok (s', os)) :
    ∃ s₁ o os', step s i = .ok (s₁, o) ∧ run step s₁ is = .ok (s', os') ∧ os = o :: os' := by
  simp only [run, bind, Except.bind, pure, Except.pure] at h
  cases h1 : step s i with
  | error e => simp [h1] at h
  | ok r =>
    obtain ⟨s₁, o⟩ := r
    cases h2 : run step s₁ is with
    | error e => simp [h1, h2] at h
    | ok r' =>
      obtain ⟨s₂, os'⟩ := r'
      simp only [h1, h2, Except.ok.injEq, Prod.mk.injEq] at h
      exact ⟨s₁, o, os', rfl, by rw [h2, h.1], h.2.symm⟩

theorem run_append_ok {is₁ is₂ : List ι} {s₁ s₂ : σ} {os₁ os₂ : List ω} (h : run step s is₁ = .ok (s₁, os₁))
    (h' : run step s₁ is₂ = .ok (s₂, os₂)) : run step s (is₁ ++ is₂) = .ok (s₂, os₁ ++ os₂) := by
  induction is₁ generalizing s os₁ with
  | nil =>
    simp only [run_nil, Except.ok.injEq, Prod.mk.injEq] at h
    obtain ⟨rfl, rfl⟩ := h
    exact h'
  | cons i is₁ ih =>
    obtain ⟨s', o, os, h1, h2, rfl⟩ := run_cons_inv h
    exact run_cons_ok h1 (ih h2)

theorem run_append_inv {is₁ is₂ : List ι} {os : List ω} (h : run step s (is₁ ++ is₂) = .ok (s', os)) :
    ∃ s₁ os₁ os₂, run step s is₁ = .ok (s₁, os₁) ∧ run step s₁ is₂ = .ok (s', os₂) ∧ os = os₁ ++ os₂ := by
  induction is₁ generalizing s os with
  | nil => exact ⟨s, [], os, rfl, h, rfl⟩
  | cons i is₁ ih =>
    obtain ⟨s₁, o, os', h1, h2, rfl⟩ := run_cons_inv h
    obtain ⟨s₂, os₁, os₂, h3, h4, rfl⟩ := ih h2
    exact ⟨s₂, o :: os₁, os₂, run_cons_ok h1 h3, h4, rfl⟩

/-- A run that fails after a run that ended well. -/
theorem run_append_error {is₁ is₂ : List ι} {s₁ : σ} {os₁ : List ω} {e : ε} (h : run step s is₁ = .ok (s₁, os₁))
    (h' : run step s₁ is₂ = .error e) : run step s (is₁ ++ is₂) = .error e := by
  induction is₁ generalizing s os₁ with
  | nil =>
    simp only [run_nil, Except.ok.injEq, Prod.mk.injEq] at h
    obtain ⟨rfl, rfl⟩ := h
    exact h'
  | cons i is₁ ih =>
    obtain ⟨s', o, os, h1, h2, rfl⟩ := run_cons_inv h
    simp only [List.cons_append, run, h1, ih h2, bind, Except.bind]

/-- Where a run fails: some step fails, after a run that ended well. -/
theorem run_error_inv {e : ε} (h : run step s is = .error e) :
    ∃ is₁ i is₂ s₁ os, is = is₁ ++ i :: is₂ ∧ run step s is₁ = .ok (s₁, os) ∧ step s₁ i = .error e := by
  induction is generalizing s with
  | nil => simp at h
  | cons i is ih =>
    cases h1 : step s i with
    | error e' =>
      simp only [run, bind, Except.bind, h1, Except.error.injEq] at h
      exact ⟨[], i, is, s, [], rfl, rfl, h ▸ h1⟩
    | ok r =>
      obtain ⟨s₁, o⟩ := r
      cases h2 : run step s₁ is with
      | ok r' => simp [run, bind, Except.bind, pure, Except.pure, h1, h2] at h
      | error e' =>
        simp only [run, bind, Except.bind, h1, h2, Except.error.injEq] at h
        obtain ⟨is₁, j, is₂, s₂, os, rfl, h3, h4⟩ := ih (h ▸ h2)
        exact ⟨i :: is₁, j, is₂, s₂, o :: os, rfl, run_cons_ok h1 h3, h4⟩

/-- **Invariants of runs.** -/
theorem run_inv (Inv : σ → Prop)
    (hstep : ∀ s i s' o, Inv s → C s i → step s i = .ok (s', o) → Inv s') {os : List ω}
    (h0 : Inv s) (hC : Along step C s is) (h : run step s is = .ok (s', os)) : Inv s' := by
  induction is generalizing s os with
  | nil => simp only [run_nil, Except.ok.injEq, Prod.mk.injEq] at h; exact h.1 ▸ h0
  | cons i is ih =>
    obtain ⟨s₁, o, os', h1, h2, -⟩ := run_cons_inv h
    exact ih (hstep s i s₁ o h0 hC.1 h1) (hC.2 s₁ o h1) h2

/-- **Observers of runs**: what holds of an observer and the machine before every step and after it
holds at the end. -/
theorem run_trace {β : Type*} {f : β → ι → ω → β} (Inv : β → σ → Prop)
    (hstep : ∀ m s i s' o, Inv m s → C s i → step s i = .ok (s', o) → Inv (f m i o) s') {m : β} {os : List ω}
    (h0 : Inv m s) (hC : Along step C s is) (h : run step s is = .ok (s', os)) :
    Inv ((is.zip os).foldl (fun m io => f m io.1 io.2) m) s' := by
  induction is generalizing s m os with
  | nil =>
    simp only [run_nil, Except.ok.injEq, Prod.mk.injEq] at h
    obtain ⟨rfl, rfl⟩ := h
    exact h0
  | cons i is ih =>
    obtain ⟨s₁, o, os', h1, h2, rfl⟩ := run_cons_inv h
    exact ih (hstep m s i s₁ o h0 hC.1 h1) (hC.2 s₁ o h1) h2

theorem run_length (h : run step s is = .ok (s', os)) : os.length = is.length := by
  induction is generalizing s os with
  | nil =>
    simp only [run_nil, Except.ok.injEq, Prod.mk.injEq] at h
    rw [← h.2]
    rfl
  | cons i is ih =>
    obtain ⟨s₁, o, os', -, h2, rfl⟩ := run_cons_inv h
    rw [List.length_cons, List.length_cons, ih h2]

/-- **Logs of runs**: what every step adds for its input is what a run adds for its inputs. -/
theorem run_log {β : Type*} {log : σ → List β} {g : ι → Option β}
    (hstep : ∀ s i s' o, step s i = .ok (s', o) → log s' = log s ++ (g i).toList)
    (h : run step s is = .ok (s', os)) : log s' = log s ++ is.filterMap g := by
  induction is generalizing s os with
  | nil =>
    simp only [run_nil, Except.ok.injEq, Prod.mk.injEq] at h
    rw [← h.1, List.filterMap_nil, List.append_nil]
  | cons i is ih =>
    obtain ⟨s₁, o, os', h1, h2, -⟩ := run_cons_inv h
    rw [ih h2, hstep s i s₁ o h1, List.append_assoc]
    cases hi : g i with
    | none => rw [List.filterMap_cons_none hi, Option.toList_none, List.nil_append]
    | some x => rw [List.filterMap_cons_some hi, Option.toList_some, List.singleton_append]

/-- The same for an observer that sees the outputs only. -/
theorem run_fold {β : Type*} {f : β → ω → β} (Inv : β → σ → Prop)
    (hstep : ∀ m s i s' o, Inv m s → C s i → step s i = .ok (s', o) → Inv (f m o) s') {m : β}
    (h0 : Inv m s) (hC : Along step C s is) (h : run step s is = .ok (s', os)) : Inv (os.foldl f m) s' := by
  have ht := run_trace Inv (show ∀ m s i s' o, Inv m s → C s i → step s i = .ok (s', o) →
    Inv ((fun m _ o => f m o) m i o) s' from hstep) h0 hC h
  have hsnd : (is.zip os).map Prod.snd = os := List.map_snd_zip (Nat.le_of_eq (run_length h))
  rw [← hsnd, List.foldl_map]
  exact ht

/-- What every step puts out, along with what it preserves. -/
theorem run_outputs (Inv : σ → Prop) {Q : ω → Prop}
    (hstep : ∀ s i s' o, Inv s → C s i → step s i = .ok (s', o) → Inv s' ∧ Q o)
    (h0 : Inv s) (hC : Along step C s is) (h : run step s is = .ok (s', os)) : Inv s' ∧ ∀ o ∈ os, Q o := by
  induction is generalizing s os with
  | nil =>
    simp only [run_nil, Except.ok.injEq, Prod.mk.injEq] at h
    obtain ⟨rfl, rfl⟩ := h
    exact ⟨h0, by simp⟩
  | cons i is ih =>
    obtain ⟨s₁, o, os', h1, h2, rfl⟩ := run_cons_inv h
    obtain ⟨hs₁, ho⟩ := hstep s i s₁ o h0 hC.1 h1
    obtain ⟨hs', hos⟩ := ih hs₁ (hC.2 s₁ o h1) h2
    exact ⟨hs', List.forall_mem_cons.2 ⟨ho, hos⟩⟩

/-- **Counters of runs**: if every step counts itself and its output carries the count, the `j`th output carries
the count `j`, from one. -/
theorem run_counts (count : σ → ℕ) {Q : ω → ℕ → Prop}
    (hstep : ∀ s i s' o, step s i = .ok (s', o) → count s' = count s + 1 ∧ Q o (count s + 1))
    (h : run step s is = .ok (s', os)) {j : ℕ} {o : ω} (hj : os[j]? = some o) : Q o (count s + j + 1) := by
  induction is generalizing s os j with
  | nil =>
    simp only [run_nil, Except.ok.injEq, Prod.mk.injEq] at h
    rw [← h.2] at hj
    simp at hj
  | cons i is ih =>
    obtain ⟨s₁, o₁, os', h1, h2, rfl⟩ := run_cons_inv h
    obtain ⟨hcount, hout⟩ := hstep s i s₁ o₁ h1
    cases j with
    | zero =>
      obtain rfl := Option.some.inj hj
      exact hout
    | succ j =>
      have hnext := ih h2 hj
      rwa [hcount, show count s + 1 + j + 1 = count s + (j + 1) + 1 by omega] at hnext

/-- **Runs that never fail.** -/
theorem run_ok (Inv : σ → Prop)
    (hstep : ∀ s i, Inv s → C s i → ∃ s' o, step s i = .ok (s', o) ∧ Inv s')
    (h0 : Inv s) (hC : Along step C s is) : ∃ s' os, run step s is = .ok (s', os) ∧ Inv s' := by
  induction is generalizing s with
  | nil => exact ⟨s, [], rfl, h0⟩
  | cons i is ih =>
    obtain ⟨s₁, o, h1, hI⟩ := hstep s i h0 hC.1
    obtain ⟨s₂, os, h2, hI'⟩ := ih hI (hC.2 s₁ o h1)
    exact ⟨s₂, o :: os, run_cons_ok h1 h2, hI'⟩

/-- A condition on the inputs alone holds along every run. -/
theorem along_of_forall {Q : ι → Prop} (h : ∀ i ∈ is, Q i) : Along step (fun _ i => Q i) s is := by
  induction is generalizing s with
  | nil => trivial
  | cons i is ih =>
    exact ⟨h i (by simp), fun s' o _ => ih (fun j hj => h j (by simp [hj]))⟩

theorem Along.and_forall {Q : ι → Prop} (hC : Along step C s is) (h : ∀ i ∈ is, Q i) :
    Along step (fun s i => Q i ∧ C s i) s is := by
  induction is generalizing s with
  | nil => trivial
  | cons i is ih =>
    exact ⟨⟨h i (by simp), hC.1⟩, fun s' o hs => ih (hC.2 s' o hs) (fun j hj => h j (by simp [hj]))⟩

section Agree

variable {σ' ι' ω' : Type*}

/-- Two results agree: both fail in the same way, or both succeed with related states and the second's output is the
image of the first's. -/
inductive Agree (R : σ → σ' → Prop) (g : ω → ω') : Except ε (σ × ω) → Except ε (σ' × ω') → Prop
  | ok {s : σ} {s' : σ'} {o : ω} (rel : R s s') : Agree R g (.ok (s, o)) (.ok (s', g o))
  | error (e : ε) : Agree R g (.error e) (.error e)

variable {R : σ → σ' → Prop} {g : ω → ω'} {x : Except ε (σ × ω)} {x' : Except ε (σ' × ω')}

theorem Agree.ok_inv {s : σ} {o : ω} (h : Agree R g (.ok (s, o)) x') : ∃ s', x' = .ok (s', g o) ∧ R s s' := by
  cases h with
  | ok rel => exact ⟨_, rfl, rel⟩

theorem Agree.error_inv {e : ε} (h : Agree R g (.error e) x') : x' = .error e := by
  cases h with
  | error => rfl

/-- **Machines that agree step by step agree on whole runs.** -/
theorem run_agree {step' : σ' → ι' → Except ε (σ' × ω')} {f : ι → ι'} {Q : ι → Prop}
    (hstep : ∀ s s' i, R s s' → Q i → Agree R g (step s i) (step' s' (f i))) {s' : σ'} (h0 : R s s')
    (hQ : ∀ i ∈ is, Q i) : Agree R (List.map g) (run step s is) (run step' s' (is.map f)) := by
  induction is generalizing s s' with
  | nil => exact .ok h0
  | cons i is ih =>
    have h1 := hstep s s' i h0 (hQ i List.mem_cons_self)
    simp only [List.map_cons, run, bind, Except.bind, pure, Except.pure]
    generalize step s i = x at h1
    generalize step' s' (f i) = x' at h1
    cases h1 with
    | error e => exact .error e
    | @ok s₁ s₁' o rel =>
      have h2 := ih rel (fun j hj => hQ j (List.mem_cons_of_mem _ hj))
      simp only
      generalize run step s₁ is = y at h2
      generalize run step' s₁' (is.map f) = y' at h2
      cases h2 with
      | error e => exact .error e
      | ok rel' => exact .ok rel'

end Agree

end Run
