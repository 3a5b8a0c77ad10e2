import Mathlib.Algebra.Order.Field.Rat
import Mathlib.Algebra.Order.Ring.Abs
import Mathlib.Tactic.Linarith
import Mathlib.Tactic.Positivity
import Mathlib.Tactic.Ring

/-!
# Fixed-point terms

A scalar `x` is held as the number `round (x * S)`. Numbers are added, and a number is multiplied
by a scalar once: a product has the scale `S ^ 2` and can no longer be multiplied. With a rounding
to a neighbour, `FixedPoint.abs_number_sub_exact` bounds the distance between what is held and what
is meant.
-/

namespace FixedPoint

/-- Terms, with a multiplication on the way to each scalar or with none. -/
inductive Term : Bool → Type where
  | scalar (x : ℚ) : Term false
  | add {isMul : Bool} (e₁ e₂ : Term isMul) : Term isMul
  | mul (e : Term false) (x : ℚ) : Term true

namespace Term

def scalars : {isMul : Bool} → Term isMul → List ℚ
  | _, scalar x => [x]
  | _, add e₁ e₂ => e₁.scalars ++ e₂.scalars
  | _, mul e x => e.scalars ++ [x]

/-- What is meant. -/
def exact : {isMul : Bool} → Term isMul → ℚ
  | _, scalar x => x
  | _, add e₁ e₂ => e₁.exact + e₂.exact
  | _, mul e x => e.exact * x

variable (round : ℚ → ℤ) (S : ℤ)

/-- What is held. -/
def number : {isMul : Bool} → Term isMul → ℤ
  | _, scalar x => round (x * S)
  | _, add e₁ e₂ => e₁.number + e₂.number
  | _, mul e x => e.number * round (x * S)

/-- How much a term can be off. -/
def error : {isMul : Bool} → Term isMul → ℚ
  | _, scalar _ => 1 / S
  | _, add e₁ e₂ => e₁.error + e₂.error
  | _, mul e x => |e.exact| / S + e.error * |x| + e.error / S

end Term

/-- The scale of a term. -/
def unit (S : ℤ) (isMul : Bool) : ℚ := if isMul then (S : ℚ) ^ 2 else S

variable {round : ℚ → ℤ} {S : ℤ} {isMul : Bool}

theorem abs_mul_sub_le {a x b y d d' : ℚ} (ha : |a - x| ≤ d) (hb : |b - y| ≤ d') :
    |a * b - x * y| ≤ |x| * d' + d * |y| + d * d' := by
  have hd : 0 ≤ d := (abs_nonneg _).trans ha
  have hsplit : a * b - x * y = x * (b - y) + (a - x) * y + (a - x) * (b - y) := by ring
  have h₁ : |x * (b - y)| ≤ |x| * d' := by
    rw [abs_mul]
    exact mul_le_mul_of_nonneg_left hb (abs_nonneg x)
  have h₂ : |(a - x) * y| ≤ d * |y| := by
    rw [abs_mul]
    exact mul_le_mul_of_nonneg_right ha (abs_nonneg y)
  have h₃ : |(a - x) * (b - y)| ≤ d * d' := by
    rw [abs_mul]
    exact mul_le_mul ha hb (abs_nonneg _) hd
  calc |a * b - x * y| ≤ |x * (b - y)| + |(a - x) * y| + |(a - x) * (b - y)| := by
        rw [hsplit]
        exact abs_add_three _ _ _
    _ ≤ |x| * d' + d * |y| + d * d' := by linarith

theorem abs_round_sub_le (hS : 0 < S) (hround : ∀ y : ℚ, |(round y : ℚ) - y| ≤ 1) (x : ℚ) :
    |(round (x * S) : ℚ) / S - x| ≤ 1 / S := by
  have hSq : (0 : ℚ) < S := by exact_mod_cast hS
  have hsub : (round (x * S) : ℚ) / S - x = (round (x * S) - x * S) / S := by
    rw [sub_div, mul_div_cancel_right₀ x hSq.ne']
  rw [hsub, abs_div, abs_of_pos hSq]
  exact div_le_div_of_nonneg_right (hround _) hSq.le

theorem abs_number_sub_exact (hS : 0 < S) (hround : ∀ y : ℚ, |(round y : ℚ) - y| ≤ 1)
    (e : Term isMul) : |(e.number round S : ℚ) / unit S isMul - e.exact| ≤ e.error S := by
  induction e with
  | scalar x => exact abs_round_sub_le hS hround x
  | @add isMul e₁ e₂ ih₁ ih₂ =>
    have hsplit : ((e₁.add e₂).number round S : ℚ) / unit S isMul - (e₁.add e₂).exact =
        ((e₁.number round S : ℚ) / unit S isMul - e₁.exact) +
          ((e₂.number round S : ℚ) / unit S isMul - e₂.exact) := by
      simp only [Term.number, Term.exact, Int.cast_add, add_div]
      ring
    rw [hsplit]
    exact (abs_add_le _ _).trans (add_le_add ih₁ ih₂)
  | mul e x ih =>
    have hmul := abs_mul_sub_le ih (abs_round_sub_le hS hround x)
    have hunit : ((e.mul x).number round S : ℚ) / unit S true =
        (e.number round S : ℚ) / unit S false * ((round (x * S) : ℚ) / S) := by
      simp only [Term.number, unit, Int.cast_mul, if_true, sq, div_mul_div_comm]
      rfl
    rw [hunit]
    calc |(e.number round S : ℚ) / unit S false * ((round (x * S) : ℚ) / S) - e.exact * x|
        ≤ |e.exact| * (1 / S) + e.error S * |x| + e.error S * (1 / S) := hmul
      _ = |e.exact| / S + e.error S * |x| + e.error S / S := by ring

end FixedPoint
