import HardApi.Paillier.Key
import Mathlib.Tactic.NormNum.Prime

/-!
# Ciphertexts and the values they carry

`Opens r s c v` says what the prime `r` of `n = r * s` sees of a ciphertext `c` of the value `v`:
`c` is a unit and its Fermat quotient is `v` times that of the generator. `Carries key c v` is
`Opens` at both primes together with the range of a ciphertext. Every operation of the class
keeps it (`encrypt_carries`, `add_carries`, `mul_carries`, through both branches of `mul`), and
`decrypt` reads `v` back from it (`decrypt_of_carries`): modulo each prime exactly, and after `crt`
as `Key.recombine v`, which is `v % n` when the residue modulo `p` is at most the one modulo `q`
and `v % n - n` otherwise, because `%` in `crt` truncates.
-/

namespace HardApi

open FermatQuotient

/-! ## One prime -/

/-- What the prime `r` of `n = r * s` sees of a ciphertext of `v`. -/
def Opens (r s : ℕ) (c v : ℤ) : Prop :=
  ¬ (r : ℤ) ∣ c ∧ fermatQuotient r c = -(s : ZMod r) * v

namespace Opens

variable {r s : ℕ} {c c' v v' : ℤ}

theorem congr (hr : r.Prime) (h : Opens r s c v) (hc : c ≡ c' [ZMOD (r : ℤ) ^ 2]) :
    Opens r s c' v := by
  refine ⟨fun hdvd => h.1 ?_, ?_⟩
  · rw [sq] at hc
    exact (hc.of_mul_left _).dvd_iff.mpr hdvd
  · rw [fermatQuotient_congr hr h.1 hc, h.2]

theorem congr_value (h : Opens r s c v) (hv : v ≡ v' [ZMOD r]) : Opens r s c v' := by
  refine ⟨h.1, ?_⟩
  rw [h.2, (ZMod.intCast_eq_intCast_iff v v' r).mpr hv]

theorem mul (hr : r.Prime) (h : Opens r s c v) (h' : Opens r s c' v') :
    Opens r s (c * c') (v + v') := by
  refine ⟨not_dvd_mul hr h.1 h'.1, ?_⟩
  rw [fermatQuotient_mul hr h.1 h'.1, h.2, h'.2]
  push_cast
  ring

theorem pow (hr : r.Prime) (h : Opens r s c v) (k : ℕ) : Opens r s (c ^ k) (v * k) := by
  refine ⟨not_dvd_pow hr h.1 k, ?_⟩
  rw [fermatQuotient_pow hr h.1, h.2]
  push_cast
  ring

theorem inv (hr : r.Prime) (h : Opens r s c v) (hc : c * c' ≡ 1 [ZMOD (r : ℤ) ^ 2]) :
    Opens r s c' (-v) := by
  refine ⟨not_dvd_of_mul_modEq_one hr (x := c') (y := c) (by rwa [mul_comm]), ?_⟩
  rw [fermatQuotient_of_mul_modEq_one hr hc, h.2]
  push_cast
  ring

/-- `1 + n * m` carries `m`, and the `n`-th power of a unit carries `0`. -/
theorem encrypt (hr : r.Prime) {base : ℤ} (hbase : ¬ (r : ℤ) ∣ base) (m : ℤ) :
    Opens r s (((r : ℤ) * s * m + 1) * base ^ (r * s)) m := by
  have hnude : (r : ℤ) * s * m + 1 = 1 + r * (s * m) := by ring
  have hunit := not_dvd_one_add_mul hr ((s : ℤ) * m)
  refine ⟨?_, ?_⟩
  · rw [hnude]
    exact not_dvd_mul hr hunit (not_dvd_pow hr hbase _)
  · rw [hnude, fermatQuotient_mul hr hunit (not_dvd_pow hr hbase _),
      fermatQuotient_one_add_mul hr, fermatQuotient_pow_of_dvd hr hbase (dvd_mul_right r s)]
    push_cast
    ring

/-- The two steps of `decrypt` at one prime: the exact quotient, and its product with the
inverse `h` of the generator's quotient, which is the residue of the value. -/
theorem decrypt (hr : r.Prime) (h : Opens r s c v) {inv : ℤ} (hpos : 0 < inv)
    (hinv : (s : ZMod r) * inv = -1) :
    ∃ l, lFunc (c ^ (r - 1) % ((r : ℤ) * r)) r = .ok l ∧
      mpzTdivR (l * inv) r = .ok (v % r) := by
  obtain ⟨l, hl, hnonneg, hquot⟩ := lFunc_pow hr h.1
  refine ⟨l, hl, ?_⟩
  rw [mpzTdivR_of_ne (natCast_ne_zero_of_prime hr),
    Int.tmod_eq_emod_of_nonneg (mul_nonneg hnonneg hpos.le)]
  congr 1
  rw [← ZMod.intCast_eq_intCast_iff', Int.cast_mul, hquot, h.2]
  linear_combination -(v : ZMod r) * hinv

end Opens

/-! ## Both primes -/

/-- `c` is a ciphertext of the value `v` under `key`. -/
structure Carries (key : Key) (c v : ℤ) : Prop where
  pos : 0 < c
  lt : c < key.obj.nsquare
  opens_p : Opens key.p key.q c v
  opens_q : Opens key.q key.p c v

namespace Key

variable (key : Key)

theorem psquare_dvd_nsquare : (key.p : ℤ) ^ 2 ∣ key.obj.nsquare :=
  ⟨(key.q : ℤ) ^ 2, by rw [obj_nsquare]; ring⟩

theorem qsquare_dvd_nsquare : (key.q : ℤ) ^ 2 ∣ key.obj.nsquare :=
  ⟨(key.p : ℤ) ^ 2, by rw [obj_nsquare]; ring⟩

theorem nsquare_ne_zero : key.obj.nsquare ≠ 0 := by
  have := key.one_lt_nsquare
  omega

theorem p_pos : (0 : ℤ) < key.p := by exact_mod_cast key.p_prime.pos

theorem q_pos : (0 : ℤ) < key.q := by exact_mod_cast key.q_prime.pos

/-- What `decrypt` returns for a ciphertext of `v`. -/
def recombine (v : ℤ) : ℤ :=
  if v % key.obj.p ≤ v % key.obj.q then v % key.obj.n else v % key.obj.n - key.obj.n

theorem recombine_modEq (v : ℤ) : key.recombine v ≡ v [ZMOD key.obj.n] := by
  unfold recombine
  split_ifs
  · exact Int.mod_modEq v _
  · exact Int.modEq_iff_dvd.mpr (by
      have h := (Int.mod_modEq v key.obj.n).dvd
      rw [sub_sub_eq_add_sub, add_sub_right_comm]
      exact dvd_add h (dvd_refl _))

end Key

namespace Carries

variable {key : Key} {c c' v v' : ℤ}

/-- The residue modulo `n ^ 2` of a number that opens to `v` at both primes. -/
theorem of_emod (hp : Opens key.p key.q c v) (hq : Opens key.q key.p c v) :
    Carries key (c % key.obj.nsquare) v := by
  have hmod := (Int.mod_modEq c key.obj.nsquare).symm
  have hp' := hp.congr key.p_prime (hmod.of_dvd key.psquare_dvd_nsquare)
  have hnonneg := Int.emod_nonneg c key.nsquare_ne_zero
  have hne : c % key.obj.nsquare ≠ 0 := fun h0 => hp'.1 (h0 ▸ dvd_zero _)
  refine ⟨by omega, Int.emod_lt_of_pos _ (by have := key.one_lt_nsquare; omega), hp', ?_⟩
  exact hq.congr key.q_prime (hmod.of_dvd key.qsquare_dvd_nsquare)

theorem congr_value (h : Carries key c v) (hv : v ≡ v' [ZMOD key.obj.n]) : Carries key c v' := by
  rw [Key.obj_n] at hv
  exact ⟨h.pos, h.lt, h.opens_p.congr_value (hv.of_mul_right _),
    h.opens_q.congr_value (hv.of_mul_left _)⟩

theorem gcd_n (h : Carries key c v) : Int.gcd c key.obj.n = 1 :=
  (key.gcd_n_eq_one_iff c).mpr ⟨h.opens_p.1, h.opens_q.1⟩

theorem gcd_nsquare (h : Carries key c v) : Int.gcd c key.obj.nsquare = 1 := by
  rw [key.nsquare_eq, ← Int.isCoprime_iff_gcd_eq_one]
  have hcop := Int.isCoprime_iff_gcd_eq_one.mpr h.gcd_n
  exact hcop.mul_right hcop

/-- The inverse that `mul` and a negative exponent take exists, and carries `-v`. -/
theorem invert (h : Carries key c v) :
    ∃ i, mpzInvert c key.obj.nsquare = .ok i ∧ Carries key i (-v) := by
  obtain ⟨i, hi, hpos, hlt, hmul⟩ := mpzInvert_of_gcd key.one_lt_nsquare h.gcd_nsquare
  refine ⟨i, hi, hpos, hlt, ?_, ?_⟩
  · exact h.opens_p.inv key.p_prime (hmul.of_dvd key.psquare_dvd_nsquare)
  · exact h.opens_q.inv key.q_prime (hmul.of_dvd key.qsquare_dvd_nsquare)

theorem pow_emod (h : Carries key c v) (k : ℕ) :
    Carries key (c ^ k % key.obj.nsquare) (v * k) :=
  of_emod (h.opens_p.pow key.p_prime k) (h.opens_q.pow key.q_prime k)

/-- `mpz_powm` with an exponent of either sign. -/
theorem powm (h : Carries key c v) (e : ℤ) :
    ∃ d, mpzPowm c e key.obj.nsquare = .ok d ∧ Carries key d (v * e) := by
  rcases le_or_gt 0 e with he | he
  · refine ⟨_, mpzPowm_of_nonneg key.nsquare_ne_zero he, ?_⟩
    have hpow := h.pow_emod e.toNat
    rwa [Int.toNat_of_nonneg he] at hpow
  · obtain ⟨i, hi, hcarries⟩ := h.invert
    refine ⟨_, mpzPowm_of_neg key.nsquare_ne_zero he hi, ?_⟩
    have hpow := hcarries.pow_emod (-e).toNat
    rwa [Int.toNat_of_nonneg (by omega), neg_mul_neg] at hpow

end Carries

/-! ## The operations of the class -/

variable {key : Key} {c c₁ c₂ v v₁ v₂ : ℤ}

/-- The fixed obfuscator base is a unit modulo both primes. -/
theorem not_dvd_base {r : ℕ} (hr : r.Prime) {n : ℤ} (hn : (r : ℤ) ∣ n)
    (hbase : ¬ (65537 : ℤ) ∣ n) : ¬ (r : ℤ) ∣ 65537 := by
  intro hdvd
  have hprime : Nat.Prime 65537 := by norm_num
  have heq : r = 65537 := (Nat.prime_dvd_prime_iff_eq hr hprime).mp (by exact_mod_cast hdvd)
  rw [heq] at hn
  exact hbase (by exact_mod_cast hn)

theorem encrypt_carries (hbase : ¬ (65537 : ℤ) ∣ key.obj.n) (m : ℤ) :
    ∃ c, key.obj.encrypt m = .ok c ∧ Carries key c m := by
  have hp := not_dvd_base key.p_prime (n := key.obj.n) ⟨key.q, key.obj_n⟩ hbase
  have hq := not_dvd_base key.q_prime (n := key.obj.n)
    ⟨key.p, by rw [key.obj_n, mul_comm]⟩ hbase
  have hpow : mpzPowm 65537 key.obj.n key.obj.nsquare =
      .ok (65537 ^ (key.p * key.q) % key.obj.nsquare) := by
    rw [key.obj_n, ← Nat.cast_mul]
    exact mpzPowm_natCast key.nsquare_ne_zero _
  refine ⟨(key.obj.n * m + 1) * 65537 ^ (key.p * key.q) % key.obj.nsquare, ?_, ?_⟩
  · simp only [Paillier.encrypt, bind, Except.bind, hpow]
    rw [mpzMod_of_ne key.nsquare_ne_zero, ((Int.mod_modEq _ _).mul_left _).eq]
  · apply Carries.of_emod
    · rw [key.obj_n]
      exact Opens.encrypt key.p_prime hp m
    · rw [key.obj_n, mul_comm (key.p : ℤ), mul_comm key.p]
      exact Opens.encrypt key.q_prime hq m

/-- A ciphertext before it is obfuscated. -/
theorem nude_carries (key : Key) (m : ℤ) :
    Carries key ((key.obj.n * m + 1) % key.obj.nsquare) m := by
  have hopens (r s : ℕ) (hr : r.Prime) : Opens r s ((r : ℤ) * s * m + 1) m := by
    have h := Opens.encrypt (s := s) hr (not_dvd_one hr) m
    rwa [one_pow, mul_one] at h
  apply Carries.of_emod
  · rw [key.obj_n]
    exact hopens key.p key.q key.p_prime
  · rw [key.obj_n, mul_comm (key.p : ℤ)]
    exact hopens key.q key.p key.q_prime

theorem add_carries (h₁ : Carries key c₁ v₁) (h₂ : Carries key c₂ v₂) :
    ∃ c, key.obj.add c₁ c₂ = .ok c ∧ Carries key c (v₁ + v₂) := by
  refine ⟨c₁ * c₂ % key.obj.nsquare, ?_, ?_⟩
  · rw [Paillier.add, mpzTdivR_of_ne key.nsquare_ne_zero,
      Int.tmod_eq_emod_of_nonneg (mul_nonneg h₁.pos.le h₂.pos.le)]
  · exact Carries.of_emod (h₁.opens_p.mul key.p_prime h₂.opens_p)
      (h₁.opens_q.mul key.q_prime h₂.opens_q)

/-- Both branches of `mul` carry `v * k`: the inverting one raises `c⁻¹` to `n - k`, and the
extra multiple of `n` vanishes. -/
theorem mul_carries (mpz : MpzCmp) (h : Carries key c v) (k : ℤ) :
    ∃ d, key.obj.mul mpz c k = .ok d ∧ Carries key d (v * k) := by
  unfold Paillier.mul
  dsimp only
  split_ifs
  · obtain ⟨i, hi, hcarries⟩ := h.invert
    obtain ⟨d, hd, hpow⟩ := hcarries.powm (key.obj.n - k)
    refine ⟨d, ?_, hpow.congr_value (Int.modEq_iff_dvd.mpr ⟨v, by ring⟩)⟩
    simp only [hi, bind, Except.bind]
    exact hd
  · exact h.powm k

/-- **Decryption of a ciphertext of `v`.** -/
theorem decrypt_of_carries (h : Carries key c v) :
    key.obj.decrypt c = .ok (key.recombine v) := by
  obtain ⟨hpPos, -, hpInv⟩ := key.hp_spec
  obtain ⟨hqPos, -, hqInv⟩ := key.hq_spec
  obtain ⟨lp, hlp, hdep⟩ := h.opens_p.decrypt key.p_prime hpPos hpInv
  obtain ⟨lq, hlq, hdeq⟩ := h.opens_q.decrypt key.q_prime hqPos hqInv
  obtain ⟨hiPos, -, hi⟩ := key.pInverse_spec
  simp only [Paillier.decrypt, Key.obj_pm1, Key.obj_qm1, Key.obj_psquare, Key.obj_qsquare,
    Key.obj_p, Key.obj_q, mpzPowm_pred key.p_prime, mpzPowm_pred key.q_prime, bind, Except.bind,
    hlp, hlq, hdep, hdeq, crt, mpzTdivR_of_ne key.q_pos.ne']
  have hle : (key.p : ℤ) ≤ key.q := by exact_mod_cast key.lt.le
  rw [Key.recombine, Key.obj_p, Key.obj_q, Key.obj_n, ← Garner.garner_tmod key.p_pos hle hiPos hi v]
  rfl

end HardApi
