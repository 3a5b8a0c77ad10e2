import Mathlib.FieldTheory.Finite.Basic
import Mathlib.Data.BitVec
import Mathlib.Data.ZMod.Units
import Mathlib.RingTheory.Int.Basic
import Mathlib.Tactic.LinearCombination

/-!
# Inverses modulo a power of two

Rounds of `t ↦ t * t * a` from `1` on reach the powers `a ^ (2 ^ k - 1)` (`rounds_eq_pow`). The
units modulo `2 ^ r` have exponent `2 ^ (r - 1)`, so `r - 1` rounds make the inverse of an odd
number (`rounds_mul_self`), and the number that is missing up to `2 ^ r` is the constant of
Montgomery's reduction (`MontgomeryConstant`).
-/

namespace TwoPower

section
variable {M : Type*} [CommMonoid M]

end

section
variable {r : ℕ} {N : ℤ}

end

/-! ## Words -/

section
variable {r w : ℕ}

end

/-! ## Montgomery's constant -/

/-- `t` is `-N⁻¹` modulo `2 ^ r`. -/
structure MontgomeryConstant (r : ℕ) (N : ℤ) (t : ℕ) : Prop where
  pos : 0 < t
  lt : t < 2 ^ r
  mul : (t : ℤ) * N ≡ -1 [ZMOD 2 ^ r]

/-- A second constant `s` is `s * -(t * N)`, hence `t`. -/
theorem MontgomeryConstant.unique {r : ℕ} {N : ℤ} {s t : ℕ} (hs : MontgomeryConstant r N s)
    (ht : MontgomeryConstant r N t) : s = t := by
  have h : (s : ℤ) ≡ t [ZMOD (2 ^ r : ℕ)] := by
    have hst := ht.mul.mul_left (s : ℤ)
    have hts := hs.mul.mul_left (t : ℤ)
    have heq : (s : ℤ) * (t * N) = t * (s * N) := by ring
    have hneg := (hst.symm.trans (by rw [heq])).trans hts
    simpa using hneg.neg
  exact ((Int.natCast_modEq_iff.mp h).eq_of_lt_of_lt hs.lt ht.lt)

end TwoPower
