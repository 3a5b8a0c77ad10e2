import Mathlib.Data.Int.ModEq
import Mathlib.Data.Int.GCD
import Mathlib.RingTheory.Coprime.Lemmas
import Mathlib.Tactic.Ring
import Mathlib.Tactic.LinearCombination

/-!
# Garner's recombination of two residues

From the residues of `v` modulo coprime `p` and `q`, and an inverse of `p` modulo `q`, Garner's
formula `v % p + ((v % q - v % p) * pInv mod q) * p` rebuilds `v` modulo `p * q`. With a
non-negative remainder the result is `v % (p * q)` (`garner_emod`). With the truncating remainder
it is that number only while `v % p ≤ v % q`, and that number minus `p * q` otherwise
(`garner_tmod`, for `p ≤ q`).
-/

namespace Garner

variable {p q pInv : ℤ}

theorem isCoprime_of_modEq (h : p * pInv ≡ 1 [ZMOD q]) : IsCoprime p q := by
  obtain ⟨k, hk⟩ := h.dvd
  exact ⟨pInv, k, by linear_combination -hk⟩

/-- A congruence modulo two coprime numbers is one modulo the product. -/
theorem modEq_mul_of_isCoprime {a b : ℤ} (hcop : IsCoprime p q) (hp : a ≡ b [ZMOD p])
    (hq : a ≡ b [ZMOD q]) : a ≡ b [ZMOD p * q] :=
  Int.modEq_iff_dvd.mpr (hcop.mul_dvd hp.dvd hq.dvd)

theorem garner_modEq (h : p * pInv ≡ 1 [ZMOD q]) (v u : ℤ)
    (hu : u ≡ (v % q - v % p) * pInv [ZMOD q]) : v % p + u * p ≡ v [ZMOD p * q] := by
  apply modEq_mul_of_isCoprime (isCoprime_of_modEq h)
  · calc v % p + u * p ≡ v % p + 0 [ZMOD p] :=
          (Int.ModEq.refl _).add (Int.modEq_zero_iff_dvd.mpr (dvd_mul_left p u))
      _ ≡ v [ZMOD p] := by rw [add_zero]; exact Int.mod_modEq v p
  · calc v % p + u * p ≡ v % p + (v % q - v % p) * pInv * p [ZMOD q] :=
          (Int.ModEq.refl _).add (hu.mul_right p)
      _ = v % p + (v % q - v % p) * (p * pInv) := by ring
      _ ≡ v % p + (v % q - v % p) * 1 [ZMOD q] := (Int.ModEq.refl _).add (h.mul_left _)
      _ = v % q := by ring
      _ ≡ v [ZMOD q] := Int.mod_modEq v q

theorem garner_emod (hp : 0 < p) (hq : 0 < q) (h : p * pInv ≡ 1 [ZMOD q]) (v : ℤ) :
    v % p + (v % q - v % p) * pInv % q * p = v % (p * q) := by
  have hmod := garner_modEq h v ((v % q - v % p) * pInv % q) (Int.mod_modEq _ _)
  have hmp := Int.emod_nonneg v hp.ne'
  have hmp' := Int.emod_lt_of_pos v hp
  have hu := Int.emod_nonneg ((v % q - v % p) * pInv) hq.ne'
  have hu' := Int.emod_lt_of_pos ((v % q - v % p) * pInv) hq
  rw [← hmod.eq]
  refine (Int.emod_eq_of_lt (add_nonneg hmp (mul_nonneg hu hp.le)) ?_).symm
  calc v % p + (v % q - v % p) * pInv % q * p < p + (v % q - v % p) * pInv % q * p := by omega
    _ = ((v % q - v % p) * pInv % q + 1) * p := by ring
    _ ≤ q * p := mul_le_mul_of_nonneg_right (by omega) hp.le
    _ = p * q := mul_comm q p

/-- The truncating remainder of `d * pInv` for a difference `d` of two residues: below zero it
never hits a multiple of `q`, since `0 < -d < q` and `pInv` is a unit. -/
theorem tmod_mul_inv {d : ℤ} (hq : 0 < q) (hinv : 0 < pInv) (h : p * pInv ≡ 1 [ZMOD q])
    (hd : -q < d) : (d * pInv).tmod q = d * pInv % q - if 0 ≤ d then 0 else q := by
  have hnat : ((q.natAbs : ℕ) : ℤ) = q := Int.natAbs_of_nonneg hq.le
  rw [Int.tmod_eq_emod]
  by_cases hd0 : 0 ≤ d
  · rw [if_pos (Or.inl (mul_nonneg hd0 hinv.le)), if_pos hd0, Nat.cast_zero]
  · have hneg : ¬ 0 ≤ d * pInv := by
      have := mul_neg_of_neg_of_pos (not_le.mp hd0) hinv
      omega
    have hndvd : ¬ q ∣ d * pInv := by
      intro hdvd
      have hcop : IsCoprime q pInv := (isCoprime_of_modEq (by rwa [mul_comm] at h)).symm
      have hle := Int.le_of_dvd (by omega) ((dvd_neg (a := q)).mpr (hcop.dvd_of_dvd_mul_right hdvd))
      omega
    rw [if_neg (not_or.mpr ⟨hneg, hndvd⟩), if_neg hd0, hnat]

/-- **Garner's formula with the truncating remainder.** -/
theorem garner_tmod (hp : 0 < p) (hpq : p ≤ q) (hinv : 0 < pInv) (h : p * pInv ≡ 1 [ZMOD q])
    (v : ℤ) : v % p + ((v % q - v % p) * pInv).tmod q * p =
      if v % p ≤ v % q then v % (p * q) else v % (p * q) - p * q := by
  have hq : 0 < q := hp.trans_le hpq
  have hmq := Int.emod_nonneg v hq.ne'
  have hmp := Int.emod_lt_of_pos v hp
  rw [tmod_mul_inv hq hinv h (by omega), ← garner_emod hp hq h v]
  by_cases hle : v % p ≤ v % q
  · rw [if_pos hle, if_pos (by omega)]
    ring
  · rw [if_neg hle, if_neg (by omega)]
    ring

end Garner
