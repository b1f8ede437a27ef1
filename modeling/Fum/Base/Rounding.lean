import Mathlib.Algebra.Order.Archimedean.Basic
import Mathlib.Algebra.Order.Floor.Ring
import Mathlib.Data.Rat.Floor
import Mathlib.Tactic.Linarith
import Mathlib.Tactic.NormNum
import Mathlib.Tactic.Positivity
import Mathlib.Tactic.FieldSimp
import Mathlib.Tactic.Ring

/-!
# Rounded rational arithmetic

A floating-point operation returns the rounded value of the exact result.
`Rounding` keeps only what programs that truncate a product or a quotient rely on:
rounding is monotone, leaves rounded values alone, commutes with doubling, and is
exact at one. Exact arithmetic is the rounding that changes nothing.

The format has no least exponent and no greatest one. A result below the least
normal number or above the greatest finite one differs from the hardware's only
where it is truncated to zero or is out of range of every integer type.
-/

set_option autoImplicit false

namespace RoundedArithmetic

/-- A rounding of the rationals to a binary floating-point format. -/
structure Rounding where
  /-- The rounded value. -/
  round : ℚ → ℚ
  mono : Monotone round
  idem : ∀ q, round (round q) = round q
  double : ∀ q, round (2 * q) = 2 * round q
  one : round 1 = 1

namespace Rounding

/-- Exact arithmetic. -/
@[reducible] def exact : Rounding where
  round q := q
  mono := fun _ _ h => h
  idem _ := rfl
  double _ := rfl
  one := rfl

variable (R : Rounding)

/-- Rounding commutes with scaling by a power of two. -/
theorem scale (k : ℕ) (q : ℚ) : R.round (2 ^ k * q) = 2 ^ k * R.round q := by
  induction k with
  | zero => simp
  | succ k ih => rw [pow_succ', mul_assoc, R.double, ih, mul_assoc]

/-- Powers of two are represented exactly. -/
theorem round_two_pow (k : ℕ) : R.round (2 ^ k) = 2 ^ k := by
  have h := R.scale k 1
  rwa [mul_one, R.one, mul_one] at h

/-- Zero is represented exactly. -/
theorem round_zero : R.round 0 = 0 := by
  have h := R.double 0
  rw [mul_zero] at h
  linarith

theorem round_nonneg {q : ℚ} (h : 0 ≤ q) : 0 ≤ R.round q := by
  have h' := R.mono h
  rwa [R.round_zero] at h'

/-- A positive number does not round to zero: some doubling of it is at least one. -/
theorem round_pos {q : ℚ} (h : 0 < q) : 0 < R.round q := by
  obtain ⟨k, hk⟩ : ∃ k : ℕ, 1 / q < 2 ^ k := pow_unbounded_of_one_lt _ one_lt_two
  have hone : (1 : ℚ) ≤ 2 ^ k * q := by
    rw [div_lt_iff₀ h] at hk
    exact hk.le
  have hr := R.mono hone
  rw [R.one, R.scale] at hr
  by_contra hneg
  have hle : R.round q ≤ 0 := not_lt.mp hneg
  have hprod : (2 : ℚ) ^ k * R.round q ≤ 0 := mul_nonpos_of_nonneg_of_nonpos (by positivity) hle
  linarith

theorem round_le_one {q : ℚ} (h : q ≤ 1) : R.round q ≤ 1 := by
  have h' := R.mono h
  rwa [R.one] at h'

/-- Multiplying a represented number by a power of two is exact. -/
theorem round_two_pow_mul {q : ℚ} (hq : R.round q = q) (k : ℕ) :
    R.round (2 ^ k * q) = 2 ^ k * q := by
  rw [R.scale, hq]

/-- If the rounded quotient of a rounded number lies below a power of two, then
the number lies below the exact product: neither rounding can cross the product,
which is represented. -/
theorem lt_two_pow_mul_of_round_div_lt {n z : ℚ} {k : ℕ} (hz : 0 < z) (hrep : R.round z = z)
    (h : R.round (R.round n / z) < 2 ^ k) : n < 2 ^ k * z := by
  by_contra hge
  have hn : (2 : ℚ) ^ k * z ≤ n := not_lt.mp hge
  have hround : (2 : ℚ) ^ k * z ≤ R.round n := by
    have h' := R.mono hn
    rwa [R.round_two_pow_mul hrep] at h'
  have hdiv : (2 : ℚ) ^ k ≤ R.round n / z := by
    rw [le_div_iff₀ hz]
    exact hround
  have hbig := R.mono hdiv
  rw [R.round_two_pow] at hbig
  linarith

end Rounding

/-! ## Values -/

/-- A value of the floating-point type of the rounding `R`. -/
inductive FloatValue (R : Rounding) where
  | nan
  | negInfinity
  | infinity
  /-- A finite value, which the format represents exactly. -/
  | finite (q : ℚ) (represented : R.round q = q)

end RoundedArithmetic
