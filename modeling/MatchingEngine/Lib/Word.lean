import Mathlib.Tactic

/-!
# Readings of machine words

A sum kept in a machine word is stored after every addition and subtraction. A
`Word` says how: `val x` is what is stored when the exact result is `x`, `none`
when the operation panics instead. The two laws are what a running sum needs:
storing after each step is the same as storing the exact sum once (`step`), and
a smaller nonnegative sum is never harder to store than a larger one (`down`).

* `Word.exact`: unbounded naturals, the reading under which nothing overflows.
* `Word.wrapping w`: two's complement truncation to `w` bits.
* `Word.checked w`: `w` bits, a result out of range panics.
-/

structure Word where
  val : ℤ → Option ℕ
  zero : val 0 = some 0
  step : ∀ {x y : ℤ} {v : ℕ}, 0 ≤ x → val x = some v → val (v + y) = val (x + y)
  down : ∀ {x y : ℤ}, 0 ≤ y → y ≤ x → (val x).isSome → (val y).isSome

namespace Word

/-- Exact naturals. -/
def exact : Word where
  val x := some x.toNat
  zero := rfl
  step := by
    intro x y v hx hv
    obtain rfl : x.toNat = v := by simpa using hv
    rw [Int.toNat_of_nonneg hx]
  down := by simp

/-- Truncation to `w` bits. -/
def wrapping (w : ℕ) : Word where
  val x := some (x % 2 ^ w).toNat
  zero := by simp
  step := by
    intro x y v hx hv
    have hv' : (x % 2 ^ w).toNat = v := by simpa using hv
    have hpos : (0 : ℤ) < 2 ^ w := by positivity
    have hvx : (v : ℤ) = x % 2 ^ w := by
      rw [← hv', Int.toNat_of_nonneg (Int.emod_nonneg _ hpos.ne')]
    rw [hvx, Int.emod_add_emod]
  down := by simp

/-- `w` bits with a range check on every result. -/
def checked (w : ℕ) : Word where
  val x := if 0 ≤ x ∧ x < 2 ^ w then some x.toNat else none
  zero := by simp
  step := by
    intro x y v hx hv
    have hv' : x.toNat = v := by
      by_contra hne
      split at hv
      · exact hne (by simpa using hv)
      · simp at hv
    rw [← hv', Int.toNat_of_nonneg hx]
  down := by
    intro x y hy hyx hs
    have hx : 0 ≤ x ∧ x < 2 ^ w := by
      by_contra hne
      simp [hne] at hs
    have hy' : 0 ≤ y ∧ y < 2 ^ w := ⟨hy, lt_of_le_of_lt hyx hx.2⟩
    simp [hy']

/-- A word that stores every nonnegative result. -/
def Total (w : Word) : Prop := ∀ x : ℤ, 0 ≤ x → (w.val x).isSome

theorem exact_total : exact.Total := fun _ _ => rfl

theorem wrapping_total (w : ℕ) : (wrapping w).Total := fun _ _ => rfl

theorem exact_val (n : ℕ) : exact.val n = some n := by simp [exact]

theorem wrapping_val (w n : ℕ) : (wrapping w).val n = some (n % 2 ^ w) := by
  have h : ((n : ℤ) % 2 ^ w).toNat = n % 2 ^ w := by
    rw [show ((n : ℤ) % 2 ^ w) = ((n % 2 ^ w : ℕ) : ℤ) by push_cast; rfl, Int.toNat_natCast]
  simp only [wrapping, h]

theorem checked_none {w : ℕ} {x : ℤ} (h : ¬ (0 ≤ x ∧ x < 2 ^ w)) : (checked w).val x = none := if_neg h

theorem checked_val {w n : ℕ} (h : n < 2 ^ w) : (checked w).val n = some n := by
  have h' : 0 ≤ (n : ℤ) ∧ (n : ℤ) < 2 ^ w := ⟨by omega, by exact_mod_cast h⟩
  simp [checked, h']

/-- What a range check lets through is stored alike without it. -/
theorem checked_wrapping {w : ℕ} {x : ℤ} {v : ℕ} (h : (checked w).val x = some v) : (wrapping w).val x = some v := by
  by_cases hx : 0 ≤ x ∧ x < 2 ^ w
  · obtain ⟨n, rfl⟩ := Int.eq_ofNat_of_zero_le hx.1
    have hn : n < 2 ^ w := by exact_mod_cast hx.2
    rw [wrapping_val, Nat.mod_eq_of_lt hn, ← checked_val hn]
    exact h
  · rw [checked_none hx] at h
    cases h

/-- Adding to a stored sum stores the larger sum. -/
theorem add {w : Word} {m n v : ℕ} (h : w.val m = some v) : w.val ((v : ℤ) + n) = w.val ((m + n : ℕ) : ℤ) := by
  rw [w.step (by omega) h]; push_cast; rfl

/-- Subtracting a summand from a stored sum stores the rest. -/
theorem sub {w : Word} {m n v : ℕ} (hn : n ≤ m) (h : w.val m = some v) :
    w.val ((v : ℤ) - n) = w.val ((m - n : ℕ) : ℤ) := by
  rw [Int.sub_eq_add_neg, w.step (by omega) h]
  congr 1
  omega

/-- A summand of a stored sum can be stored. -/
theorem down_nat {w : Word} {m n v : ℕ} (hn : n ≤ m) (h : w.val m = some v) : ∃ u, w.val n = some u :=
  Option.isSome_iff_exists.1 (w.down (x := (m : ℤ)) (by omega) (by omega) (by rw [h]; rfl))

end Word
