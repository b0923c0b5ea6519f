import MatchingEngine.Lib.Run
import Mathlib.Order.Bounds.Basic
import Mathlib.Data.List.Chain

/-!
# Computations that leave a trace

A computation of type `Traced τ ε α` returns or fails like an `Except ε α`, and either
way leaves behind the points it passed, in order. Forgetting the points gives the
plain computation back (`result`).

`Path R c x Q` is about a traced computation started at the point `c`: every point it
passes stands in relation `R` to the one before, and if it returns, `Q` holds of its
value and of the last point. The rules compose it along a computation.

* `walk_result`: the traced run of a state machine is its run.
* `collect_bind`: collecting the points along a sequence.
* `Path.bind`, `Path.walk`: the rules of sequence and of runs.
* `isGreatest_of_chain`: along a chain, a quantity that grows exactly when another one
  passes it is the greatest value the other one has had.
-/

/-- The points passed, and how the computation ended. -/
structure Traced (τ ε α : Type) where
  points : List τ
  result : Except ε α

namespace Traced

variable {τ ε α β : Type}

/-- Go on with `f` where `x` returned; a failure keeps the points passed before it. -/
def andThen (x : Traced τ ε α) (f : α → Traced τ ε β) : Traced τ ε β :=
  match x.result with
  | .ok a => ⟨x.points ++ (f a).points, (f a).result⟩
  | .error e => ⟨x.points, .error e⟩

instance : Monad (Traced τ ε) where
  pure a := ⟨[], .ok a⟩
  bind := andThen

/-- A plain computation passes no point. -/
def lift (x : Except ε α) : Traced τ ε α := ⟨[], x⟩

instance : MonadLift (Except ε) (Traced τ ε) := ⟨lift⟩

/-- Pass a point. -/
def point (t : τ) : Traced τ ε Unit := ⟨[t], .ok ()⟩

/-- Feed a list of inputs to a machine whose steps leave a trace. -/
def walk {σ ι ω : Type} (step : σ → ι → Traced τ ε (σ × ω)) : σ → List ι → Traced τ ε (σ × List ω)
  | s, [] => pure (s, [])
  | s, i :: is => do
    let (s', o) ← step s i
    let (s'', os) ← walk step s' is
    pure (s'', o :: os)

variable {x y : Traced τ ε α} {f : α → Traced τ ε β}

theorem bind_of_result_ok {a : α} (h : x.result = .ok a) :
    x >>= f = ⟨x.points ++ (f a).points, (f a).result⟩ := by
  change andThen x f = _
  unfold andThen
  rw [h]

theorem bind_of_result_error {e : ε} (h : x.result = .error e) : x >>= f = ⟨x.points, .error e⟩ := by
  change andThen x f = _
  unfold andThen
  rw [h]

/-- A plain computation that returned passes its value on. -/
theorem lift_ok_bind {x : Except ε α} {a : α} (h : x = .ok a) : (liftM x : Traced τ ε α) >>= f = f a := by
  subst h
  rfl

/-- A point in front is the first point passed. -/
theorem point_bind {t : τ} {g : Unit → Traced τ ε α} : point t >>= g = ⟨t :: (g ()).points, (g ()).result⟩ := rfl

/-! ### Collecting the points -/

/-- What was returned, and the points passed on the way; a failure drops them. -/
def collect (x : Traced τ ε α) : Except ε (α × List τ) := x.result.map (fun a => (a, x.points))

theorem collect_bind :
    (x >>= f).collect = x.collect >>= fun r => (f r.1).collect.map (fun r' => (r'.1, r.2 ++ r'.2)) := by
  unfold collect
  cases hr : x.result with
  | error e =>
    rw [bind_of_result_error hr]
    rfl
  | ok a =>
    rw [bind_of_result_ok hr]
    change _ = Except.map _ (Except.map _ (f a).result)
    cases (f a).result with
    | error e => rfl
    | ok b => rfl

theorem collect_point_bind {t : τ} {g : Unit → Traced τ ε α} :
    (point t >>= g).collect = (g ()).collect.map (fun r => (r.1, t :: r.2)) := by
  rw [point_bind]
  unfold collect
  cases (g ()).result with
  | error e => rfl
  | ok a => rfl

/-! ### Forgetting the points -/

theorem result_bind {x' : Except ε α} {f' : α → Except ε β} (hx : x.result = x')
    (hf : ∀ a, (f a).result = f' a) : (x >>= f).result = x' >>= f' := by
  cases hr : x.result with
  | error e => rw [bind_of_result_error hr, bind_of_error (hx ▸ hr)]
  | ok a => rw [bind_of_result_ok hr, bind_of_ok (hx ▸ hr), hf a]

theorem result_point {t : τ} {g : Unit → Traced τ ε α} {x' : Except ε α} (h : (g ()).result = x') :
    (point t >>= g).result = x' := h

theorem result_ite {c : Prop} [Decidable c] {x' y' : Except ε α} (hx : x.result = x') (hy : y.result = y') :
    (if c then x else y).result = if c then x' else y' := by
  split
  · exact hx
  · exact hy

section Run

variable {σ ι ω : Type} {step : σ → ι → Traced τ ε (σ × ω)} {step' : σ → ι → Except ε (σ × ω)}

/-- **The traced run, without its points, is the run.** -/
theorem walk_result (h : ∀ s i, (step s i).result = step' s i) (s : σ) (is : List ι) :
    (walk step s is).result = run step' s is := by
  induction is generalizing s with
  | nil => rfl
  | cons i is ih =>
    refine result_bind (h s i) fun r => ?_
    exact result_bind (ih r.1) fun r' => rfl

end Run

/-! ### Paths -/

theorem isChain_cons_append {R : τ → τ → Prop} {c : τ} {l₁ l₂ : List τ} (h₁ : (c :: l₁).IsChain R)
    (h₂ : (l₁.getLastD c :: l₂).IsChain R) : (c :: (l₁ ++ l₂)).IsChain R := by
  induction l₁ generalizing c with
  | nil => exact h₂
  | cons d l₁ ih =>
    rw [List.isChain_cons_cons] at h₁
    rw [List.getLastD_cons] at h₂
    rw [List.cons_append, List.isChain_cons_cons]
    exact ⟨h₁.1, ih h₁.2 h₂⟩

theorem getLastD_append (c : τ) (l₁ l₂ : List τ) : (l₁ ++ l₂).getLastD c = l₂.getLastD (l₁.getLastD c) := by
  induction l₁ generalizing c with
  | nil => rfl
  | cons d l₁ ih => rw [List.cons_append, List.getLastD_cons, List.getLastD_cons, ih]

/-- From `c` on, each point passed is related to the one before, and `Q` holds of what is returned
and the point it is returned at. -/
structure Path (R : τ → τ → Prop) (c : τ) (x : Traced τ ε α) (Q : α → τ → Prop) : Prop where
  chain : (c :: x.points).IsChain R
  post : ∀ a, x.result = .ok a → Q a (x.points.getLastD c)

namespace Path

variable {R : τ → τ → Prop} {c : τ} {Q : α → τ → Prop} {S : β → τ → Prop} {a : α}

theorem pure (h : Q a c) : Path R c (pure a : Traced τ ε α) Q := by
  refine ⟨.singleton c, fun b hb => ?_⟩
  obtain rfl := Except.ok.inj hb
  exact h

theorem error (e : ε) : Path R c (lift (.error e) : Traced τ ε α) Q :=
  ⟨.singleton c, fun a ha => by cases ha⟩

/-- **The rule of sequence.** -/
theorem bind (hx : Path R c x Q) (hf : ∀ a d, Q a d → Path R d (f a) S) : Path R c (x >>= f) S := by
  cases hr : x.result with
  | error e =>
    rw [bind_of_result_error hr]
    exact ⟨hx.chain, fun b hb => by cases hb⟩
  | ok a =>
    rw [bind_of_result_ok hr]
    have hfa := hf a _ (hx.post a hr)
    refine ⟨isChain_cons_append hx.chain hfa.chain, fun b hb => ?_⟩
    rw [getLastD_append]
    exact hfa.post b hb

/-- A plain computation in front. -/
theorem lift_bind {x : Except ε α} (h : ∀ a, x = .ok a → Path R c (f a) S) : Path R c (lift x >>= f) S := by
  have hx : Path R c (lift x : Traced τ ε α) fun a d => d = c ∧ x = .ok a := ⟨.singleton c, fun a ha => ⟨rfl, ha⟩⟩
  refine hx.bind fun a d hd => ?_
  rw [hd.1]
  exact h a hd.2

/-- A point in front. -/
theorem point_bind {t : τ} {g : Unit → Traced τ ε α} (ht : R c t) (h : Path R t (g ()) Q) :
    Path R c (point t >>= g) Q := by
  have hp : Path R c (point t : Traced τ ε Unit) fun _ d => d = t :=
    ⟨List.isChain_cons_cons.2 ⟨ht, .singleton t⟩, fun _ _ => rfl⟩
  refine hp.bind fun _ d hd => ?_
  rw [hd]
  exact h

theorem ite {p : Prop} [Decidable p] (hx : p → Path R c x Q) (hy : ¬ p → Path R c y Q) :
    Path R c (if p then x else y) Q := by
  split
  · next h => exact hx h
  · next h => exact hy h

/-- **The rule of runs**: what holds between the state and the point before every step and after it. -/
theorem walk {σ ι ω : Type} {step : σ → ι → Traced τ ε (σ × ω)} (Inv : σ → τ → Prop)
    (hstep : ∀ s i c, Inv s c → Path R c (step s i) fun r d => Inv r.1 d) {s : σ} (h0 : Inv s c) (is : List ι) :
    Path R c (walk step s is) fun r d => Inv r.1 d := by
  induction is generalizing s c with
  | nil => exact .pure h0
  | cons i is ih =>
    refine .bind (hstep s i c h0) fun r d hr => ?_
    exact .bind (ih hr) fun r' d' hr' => .pure hr'

theorem mono {Q' : α → τ → Prop} (hx : Path R c x Q) (h : ∀ a d, Q a d → Q' a d) : Path R c x Q' :=
  ⟨hx.chain, fun a ha => h a _ (hx.post a ha)⟩

end Path

end Traced

/-! ### Peaks -/

/-- **A high-water mark.** If `mark` starts at the first level and every step raises it exactly to the
new level where that is higher, then it is, at every point, the highest level so far. -/
theorem isGreatest_of_chain {τ α : Type*} [LinearOrder α] {R : τ → τ → Prop} {level mark : τ → α}
    (hR : ∀ x y, R x y → mark y = max (mark x) (level y)) {c d : τ} {l pre post : List τ} (hc : mark c = level c)
    (h : (c :: l).IsChain R) (hsplit : c :: l = pre ++ d :: post) :
    IsGreatest {v | ∃ x ∈ pre ++ [d], level x = v} (mark d) := by
  induction pre using List.reverseRecOn generalizing d post with
  | nil =>
    obtain ⟨rfl, -⟩ := List.cons.inj hsplit
    rw [hc]
    refine ⟨⟨c, List.mem_singleton_self c, rfl⟩, ?_⟩
    rintro v ⟨x, hx, rfl⟩
    rw [List.nil_append, List.mem_singleton] at hx
    rw [hx]
  | append_singleton pre e ih =>
    rw [List.append_assoc, List.singleton_append] at hsplit
    obtain ⟨hmem, hbound⟩ := ih hsplit
    have hstep : R e d := by
      rw [hsplit, List.isChain_append_cons_cons] at h
      exact h.2.1
    have hd := hR e d hstep
    constructor
    · -- either the mark stayed, and an earlier point has it, or the new point has it
      rcases le_total (level d) (mark e) with hle | hle
      · rw [max_eq_left hle] at hd
        obtain ⟨x, hx, hxe⟩ := hmem
        exact ⟨x, List.mem_append_left _ hx, hxe.trans hd.symm⟩
      · rw [max_eq_right hle] at hd
        exact ⟨d, List.mem_append_right _ (List.mem_singleton_self d), hd.symm⟩
    · rintro v ⟨x, hx, rfl⟩
      rw [List.mem_append, List.mem_singleton] at hx
      rw [hd]
      rcases hx with hx | rfl
      · exact (hbound ⟨x, hx, rfl⟩).trans (le_max_left _ _)
      · exact le_max_right _ _
