import HardApi.Paillier.Base
import HardApi.Lib.FermatQuotient
import HardApi.Lib.Garner

/-!
# Keys

What `key_gen` leaves in an object, for every pair of distinct primes. `keyGenRest` is total on
such a pair (`keyGenRest_total`): both divisions inside `h_func` are exact and all three inverses
exist, the prime `2` included. A `Key` is an object with the primes it came from; its derived
members are known through `Key.pInverse_spec`, `Key.hp_spec` and `Key.hq_spec` only. `hp` is the
inverse of the Fermat quotient of `g` modulo `p`, which is `-q`.
-/

namespace HardApi

open FermatQuotient

/-- The primes of a key, after the swap of `key_gen`. -/
structure PrimePair where
  p : ℕ
  q : ℕ
  p_prime : p.Prime
  q_prime : q.Prime
  lt : p < q

/-! ## The power and the quotient of one prime -/

section
variable {r : ℕ} {c : ℤ}

theorem natCast_ne_zero_of_prime (hr : r.Prime) : (r : ℤ) ≠ 0 := by
  have := hr.ne_zero
  exact_mod_cast this

/-- The power that `decrypt` and `h_func` take modulo the square of a prime. -/
theorem mpzPowm_pred (hr : r.Prime) (c : ℤ) :
    mpzPowm c (r - 1) (r * r) = .ok (c ^ (r - 1) % ((r : ℤ) * r)) := by
  have hr0 := natCast_ne_zero_of_prime hr
  rw [show (r : ℤ) - 1 = ((r - 1 : ℕ) : ℤ) by have := hr.one_le; omega]
  exact mpzPowm_natCast (mul_ne_zero hr0 hr0) _

/-- For a base that the prime does not divide, the division of `l_func` is exact and its quotient
is the Fermat quotient. -/
theorem pow_emod_sub_one (hr : r.Prime) (hc : ¬ (r : ℤ) ∣ c) :
    (r : ℤ) ∣ c ^ (r - 1) % ((r : ℤ) * r) - 1 ∧
      (((c ^ (r - 1) % ((r : ℤ) * r) - 1) / r : ℤ) : ZMod r) = fermatQuotient r c := by
  apply cast_ediv_of_modEq hr hc
  rw [sq]
  exact Int.mod_modEq _ _

theorem lFunc_pow (hr : r.Prime) (hc : ¬ (r : ℤ) ∣ c) :
    ∃ l, lFunc (c ^ (r - 1) % ((r : ℤ) * r)) r = .ok l ∧ 0 ≤ l ∧
      (l : ZMod r) = fermatQuotient r c := by
  have hr0 := natCast_ne_zero_of_prime hr
  obtain ⟨hdvd, hquot⟩ := pow_emod_sub_one hr hc
  refine ⟨_, mpzDivexact_of_dvd hr0 hdvd, ?_, hquot⟩
  have hnonneg := Int.emod_nonneg (c ^ (r - 1)) (mul_ne_zero hr0 hr0)
  have hne : c ^ (r - 1) % ((r : ℤ) * r) ≠ 0 := by
    intro h0
    rw [h0, zero_sub, dvd_neg] at hdvd
    exact not_dvd_one hr hdvd
  exact Int.ediv_nonneg (by omega) (by positivity)

/-- For a base that the prime divides, the division of `l_func` has a remainder. -/
theorem lFunc_pow_of_dvd (hr : r.Prime) (hc : (r : ℤ) ∣ c) :
    lFunc (c ^ (r - 1) % ((r : ℤ) * r)) r = .error .inexactDivision := by
  apply mpzDivexact_of_not_dvd (natCast_ne_zero_of_prime hr)
  intro hdvd
  have hmod : c ^ (r - 1) % ((r : ℤ) * r) ≡ c ^ (r - 1) [ZMOD r] :=
    (Int.mod_modEq _ _).of_mul_left _
  have hpow := dvd_add hmod.dvd hdvd
  rw [sub_add_sub_cancel] at hpow
  exact (dvd_pow_sub_one_iff hr).mp hpow hc

/-- The generator `g = n + 1` seen from the factor `r` of `n = r * s`. -/
theorem fermatQuotient_generator (hr : r.Prime) (s : ℕ) :
    fermatQuotient r ((r : ℤ) * s + 1) = -(s : ZMod r) := by
  rw [add_comm, fermatQuotient_one_add_mul hr, Int.cast_natCast]

theorem not_dvd_generator (hr : r.Prime) (s : ℕ) : ¬ (r : ℤ) ∣ (r : ℤ) * s + 1 := by
  rw [add_comm]
  exact not_dvd_one_add_mul hr s

theorem hFunc_spec {s : ℕ} (hr : r.Prime) (hs : s.Prime) (hne : r ≠ s) :
    ∃ h, hFunc ((r : ℤ) * s + 1) r (r * r) = .ok h ∧ 0 < h ∧ h < r ∧
      (s : ZMod r) * h = -1 := by
  obtain ⟨l, hl, -, hquot⟩ := lFunc_pow hr (not_dvd_generator hr s)
  rw [fermatQuotient_generator hr] at hquot
  have hgcd : Int.gcd l r = 1 := by
    rw [← Int.isCoprime_iff_gcd_eq_one]
    refine ((Nat.prime_iff_prime_int.mp hr).coprime_iff_not_dvd.mpr ?_).symm
    rw [← ZMod.intCast_zmod_eq_zero_iff_dvd, hquot, neg_eq_zero, ZMod.natCast_eq_zero_iff]
    exact fun h => hne ((Nat.prime_dvd_prime_iff_eq hr hs).mp h)
  obtain ⟨h, hinv, hpos, hlt, hmul⟩ := mpzInvert_of_gcd (by exact_mod_cast hr.one_lt) hgcd
  refine ⟨h, ?_, hpos, hlt, ?_⟩
  · simp only [hFunc, mpzPowm_pred hr, bind, Except.bind, hl]
    exact hinv
  · have hcast := (ZMod.intCast_eq_intCast_iff _ _ r).mpr hmul
    push_cast at hcast
    rw [hquot] at hcast
    linear_combination -hcast

end

/-! ## The key of a pair of primes -/

namespace PrimePair

variable (pair : PrimePair)

theorem ne : pair.p ≠ pair.q := pair.lt.ne

theorem gcd_eq_one : Int.gcd pair.p pair.q = 1 := by
  rw [Int.gcd_natCast_natCast]
  exact (Nat.coprime_primes pair.p_prime pair.q_prime).mpr pair.ne

/-- Everything `key_gen` computes from two distinct primes. -/
theorem keyGenRest_total (keySize : ℕ) :
    ∃ pInverse hp hq : ℤ,
      Paillier.keyGenRest keySize pair.p pair.q = .ok {
        n := pair.p * pair.q, g := pair.p * pair.q + 1,
        nsquare := pair.p * pair.q * (pair.p * pair.q), p := pair.p, q := pair.q,
        pm1 := pair.p - 1, qm1 := pair.q - 1, psquare := pair.p * pair.p,
        qsquare := pair.q * pair.q, pInverse, hp, hq, keySize } ∧
      (0 < pInverse ∧ pInverse < pair.q ∧ (pair.p : ℤ) * pInverse ≡ 1 [ZMOD pair.q]) ∧
      (0 < hp ∧ hp < pair.p ∧ (pair.q : ZMod pair.p) * hp = -1) ∧
      (0 < hq ∧ hq < pair.q ∧ (pair.p : ZMod pair.q) * hq = -1) := by
  obtain ⟨pInverse, hinv, hinvSpec⟩ :=
    mpzInvert_of_gcd (by exact_mod_cast pair.q_prime.one_lt) pair.gcd_eq_one
  obtain ⟨hp, hpEq, hpSpec⟩ := hFunc_spec pair.p_prime pair.q_prime pair.ne
  obtain ⟨hq, hqEq, hqSpec⟩ := hFunc_spec pair.q_prime pair.p_prime pair.ne.symm
  rw [mul_comm (pair.q : ℤ) pair.p] at hqEq
  have hswap : ¬ (pair.q : ℤ) < pair.p := by
    have := pair.lt
    omega
  refine ⟨pInverse, hp, hq, ?_, hinvSpec, hpSpec, hqSpec⟩
  simp only [Paillier.keyGenRest, if_neg hswap, hinv, hpEq, hqEq, bind, Except.bind]
  rfl

end PrimePair

/-- The order in which the two primes were drawn does not matter. -/
theorem keyGenRest_comm (keySize : ℕ) (p q : ℤ) :
    Paillier.keyGenRest keySize p q = Paillier.keyGenRest keySize q p := by
  rcases lt_trichotomy p q with h | rfl | h
  · simp only [Paillier.keyGenRest, if_neg h.not_gt, if_pos h, mul_comm p q]
  · rfl
  · simp only [Paillier.keyGenRest, if_neg h.not_gt, if_pos h, mul_comm p q]

/-- Where the derived members come from. -/
theorem keyGenRest_ok {keySize : ℕ} {p q : ℤ} {obj : Paillier} (hpq : p < q)
    (h : Paillier.keyGenRest keySize p q = .ok obj) :
    mpzInvert p q = .ok obj.pInverse ∧ hFunc obj.g p obj.psquare = .ok obj.hp ∧
      hFunc obj.g q obj.qsquare = .ok obj.hq := by
  simp only [Paillier.keyGenRest, if_neg hpq.not_gt] at h
  cases hinv : mpzInvert p q with
  | error e =>
    rw [hinv] at h
    cases h
  | ok pInverse =>
    cases hhp : hFunc (p * q + 1) p (p * p) with
    | error e =>
      rw [hinv, hhp] at h
      cases h
    | ok hp =>
      cases hhq : hFunc (p * q + 1) q (q * q) with
      | error e =>
        rw [hinv, hhp, hhq] at h
        cases h
      | ok hq =>
        rw [hinv, hhp, hhq] at h
        obtain rfl := Except.ok.inj h
        exact ⟨rfl, hhp, hhq⟩

/-- An object that `key_gen` left, with the primes it was made from. -/
structure Key extends PrimePair where
  obj : Paillier
  left_by_keyGen : Paillier.keyGenRest obj.keySize p q = .ok obj

namespace Key

variable (key : Key)

theorem obj_spec :
    ∃ pInverse hp hq : ℤ,
      key.obj = {
        n := key.p * key.q, g := key.p * key.q + 1, nsquare := key.p * key.q * (key.p * key.q),
        p := key.p, q := key.q, pm1 := key.p - 1, qm1 := key.q - 1, psquare := key.p * key.p,
        qsquare := key.q * key.q, pInverse, hp, hq, keySize := key.obj.keySize } ∧
      (0 < pInverse ∧ pInverse < key.q ∧ (key.p : ℤ) * pInverse ≡ 1 [ZMOD key.q]) ∧
      (0 < hp ∧ hp < key.p ∧ (key.q : ZMod key.p) * hp = -1) ∧
      (0 < hq ∧ hq < key.q ∧ (key.p : ZMod key.q) * hq = -1) := by
  obtain ⟨pInverse, hp, hq, hrest, hspec⟩ := key.toPrimePair.keyGenRest_total key.obj.keySize
  exact ⟨pInverse, hp, hq, Except.ok.inj (key.left_by_keyGen.symm.trans hrest), hspec⟩

@[simp] theorem obj_n : key.obj.n = key.p * key.q := by
  obtain ⟨_, _, _, h, -⟩ := key.obj_spec
  rw [h]

@[simp] theorem obj_g : key.obj.g = key.p * key.q + 1 := by
  obtain ⟨_, _, _, h, -⟩ := key.obj_spec
  rw [h]

@[simp] theorem obj_nsquare : key.obj.nsquare = key.p * key.q * (key.p * key.q) := by
  obtain ⟨_, _, _, h, -⟩ := key.obj_spec
  rw [h]

@[simp] theorem obj_p : key.obj.p = key.p := by
  obtain ⟨_, _, _, h, -⟩ := key.obj_spec
  rw [h]

@[simp] theorem obj_q : key.obj.q = key.q := by
  obtain ⟨_, _, _, h, -⟩ := key.obj_spec
  rw [h]

@[simp] theorem obj_pm1 : key.obj.pm1 = key.p - 1 := by
  obtain ⟨_, _, _, h, -⟩ := key.obj_spec
  rw [h]

@[simp] theorem obj_qm1 : key.obj.qm1 = key.q - 1 := by
  obtain ⟨_, _, _, h, -⟩ := key.obj_spec
  rw [h]

@[simp] theorem obj_psquare : key.obj.psquare = key.p * key.p := by
  obtain ⟨_, _, _, h, -⟩ := key.obj_spec
  rw [h]

@[simp] theorem obj_qsquare : key.obj.qsquare = key.q * key.q := by
  obtain ⟨_, _, _, h, -⟩ := key.obj_spec
  rw [h]

theorem pInverse_spec : 0 < key.obj.pInverse ∧ key.obj.pInverse < key.q ∧
    (key.p : ℤ) * key.obj.pInverse ≡ 1 [ZMOD key.q] := by
  obtain ⟨_, _, _, h, hspec, -, -⟩ := key.obj_spec
  rw [h]
  exact hspec

/-- `hp` is `-q⁻¹` modulo `p`. -/
theorem hp_spec : 0 < key.obj.hp ∧ key.obj.hp < key.p ∧
    (key.q : ZMod key.p) * key.obj.hp = -1 := by
  obtain ⟨_, _, _, h, -, hspec, -⟩ := key.obj_spec
  rw [h]
  exact hspec

/-- `hq` is `-p⁻¹` modulo `q`. -/
theorem hq_spec : 0 < key.obj.hq ∧ key.obj.hq < key.q ∧
    (key.p : ZMod key.q) * key.obj.hq = -1 := by
  obtain ⟨_, _, _, h, -, -, hspec⟩ := key.obj_spec
  rw [h]
  exact hspec

theorem hp_modEq : (key.q : ℤ) * key.obj.hp ≡ -1 [ZMOD key.p] := by
  rw [← ZMod.intCast_eq_intCast_iff]
  push_cast
  exact key.hp_spec.2.2

theorem hq_modEq : (key.p : ℤ) * key.obj.hq ≡ -1 [ZMOD key.q] := by
  rw [← ZMod.intCast_eq_intCast_iff]
  push_cast
  exact key.hq_spec.2.2

theorem q_ne_two : key.q ≠ 2 := by
  have := key.p_prime.two_le
  have := key.lt
  omega

theorem n_pos : 0 < key.obj.n := by
  have := key.p_prime.pos
  have := key.q_prime.pos
  rw [obj_n]
  positivity

theorem nsquare_eq : key.obj.nsquare = key.obj.n * key.obj.n := by
  rw [obj_nsquare, obj_n]

theorem one_lt_nsquare : 1 < key.obj.nsquare := by
  have hp : (1 : ℤ) < key.p := by exact_mod_cast key.p_prime.one_lt
  have hq : (1 : ℤ) < key.q := by exact_mod_cast key.q_prime.one_lt
  rw [obj_nsquare]
  nlinarith [mul_lt_mul'' hp hq zero_le_one zero_le_one]

/-- A number is prime to `n` when neither prime divides it. -/
theorem gcd_n_eq_one_iff (c : ℤ) :
    Int.gcd c key.obj.n = 1 ↔ ¬ (key.p : ℤ) ∣ c ∧ ¬ (key.q : ℤ) ∣ c := by
  rw [obj_n, ← Int.isCoprime_iff_gcd_eq_one, IsCoprime.mul_right_iff]
  have hp := (Nat.prime_iff_prime_int.mp key.p_prime).coprime_iff_not_dvd (n := c)
  have hq := (Nat.prime_iff_prime_int.mp key.q_prime).coprime_iff_not_dvd (n := c)
  rw [isCoprime_comm, hp, isCoprime_comm, hq]

end Key

/-- The key of a pair of primes. -/
def PrimePair.key (pair : PrimePair) (keySize : ℕ) : Key where
  toPrimePair := pair
  obj := match Paillier.keyGenRest keySize pair.p pair.q with
    | .ok obj => obj
    | .error _ => ⟨0, 0, 0, 0, 0, 0, 0, 0, 0, 0, 0, 0, keySize⟩
  left_by_keyGen := by
    obtain ⟨_, _, _, h, -⟩ := pair.keyGenRest_total keySize
    rw [h]
    exact h

theorem PrimePair.keyGenRest_key (pair : PrimePair) (keySize : ℕ) :
    Paillier.keyGenRest keySize pair.p pair.q = .ok (pair.key keySize).obj := by
  obtain ⟨_, _, _, h, -⟩ := pair.keyGenRest_total keySize
  simp only [PrimePair.key, h]

end HardApi
