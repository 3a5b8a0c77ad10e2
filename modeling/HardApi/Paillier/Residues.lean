import HardApi.Paillier.Correctness

/-!
# Every ciphertext

A number below `n ^ 2` that is prime to `n` carries one residue modulo `n`, whoever made it
(`exists_carries`, `Carries.modEq`). So `add` and `mul` are right on all of them, `encrypt` gives
one number to each residue, and `decrypt` tells two of them apart exactly when they differ by more
than an obfuscator.
-/

namespace HardApi

open FermatQuotient

variable {key : Key} {r s : ℕ} {c c' c₁ c₂ v v' m m' : ℤ}

/-! ## One prime -/

theorem natCast_ne_zero_of_ne (hr : r.Prime) (hs : s.Prime) (hne : r ≠ s) : (s : ZMod r) ≠ 0 := by
  rw [Ne, ZMod.natCast_eq_zero_iff]
  exact fun hdvd => hne ((Nat.prime_dvd_prime_iff_eq hr hs).mp hdvd)

theorem Opens.modEq (hr : r.Prime) (hs : (s : ZMod r) ≠ 0) (h : Opens r s c v)
    (h' : Opens r s c v') : v ≡ v' [ZMOD r] := by
  have : Fact r.Prime := ⟨hr⟩
  have heq := h.2.symm.trans h'.2
  rw [← ZMod.intCast_eq_intCast_iff]
  exact mul_left_cancel₀ (neg_ne_zero.mpr hs) heq

theorem exists_opens (hr : r.Prime) (hs : (s : ZMod r) ≠ 0) (hc : ¬ (r : ℤ) ∣ c) :
    ∃ v, Opens r s c v := by
  have : Fact r.Prime := ⟨hr⟩
  obtain ⟨v, hv⟩ := ZMod.intCast_surjective (-((s : ZMod r)⁻¹ * fermatQuotient r c))
  refine ⟨v, hc, ?_⟩
  rw [hv, neg_mul_neg, mul_inv_cancel_left₀ hs]

/-! ## Both primes -/

namespace Key

variable (key : Key)

theorem q_ne_zero : ((key.q : ℕ) : ZMod key.p) ≠ 0 :=
  natCast_ne_zero_of_ne key.p_prime key.q_prime key.lt.ne

theorem p_ne_zero : ((key.p : ℕ) : ZMod key.q) ≠ 0 :=
  natCast_ne_zero_of_ne key.q_prime key.p_prime key.lt.ne'

theorem coprime : IsCoprime (key.p : ℤ) key.q :=
  Nat.isCoprime_iff_coprime.mpr ((Nat.coprime_primes key.p_prime key.q_prime).mpr key.lt.ne)

/-- Congruent modulo `n` is congruent modulo both primes. -/
theorem modEq_n_iff : v ≡ v' [ZMOD key.obj.n] ↔ v ≡ v' [ZMOD key.p] ∧ v ≡ v' [ZMOD key.q] := by
  rw [key.obj_n]
  exact (Int.modEq_and_modEq_iff_modEq_mul (Int.isCoprime_iff_gcd_eq_one.mp key.coprime)).symm

theorem modEq_nsquare_iff : v ≡ v' [ZMOD key.obj.nsquare] ↔
    v ≡ v' [ZMOD (key.p : ℤ) ^ 2] ∧ v ≡ v' [ZMOD (key.q : ℤ) ^ 2] := by
  have hcop := Int.isCoprime_iff_gcd_eq_one.mp (key.coprime.pow (m := 2) (n := 2))
  have hsplit : key.obj.nsquare = (key.p : ℤ) ^ 2 * (key.q : ℤ) ^ 2 := by
    rw [key.obj_nsquare]
    ring
  rw [hsplit]
  exact (Int.modEq_and_modEq_iff_modEq_mul hcop).symm

end Key

/-- What a client can be sent: a number in range, prime to `n`. -/
structure IsCiphertext (key : Key) (c : ℤ) : Prop where
  pos : 0 < c
  lt : c < key.obj.nsquare
  gcd : Int.gcd c key.obj.n = 1

theorem Carries.isCiphertext (h : Carries key c v) : IsCiphertext key c := ⟨h.pos, h.lt, h.gcd_n⟩

theorem exists_carries (h : IsCiphertext key c) : ∃ v, Carries key c v := by
  obtain ⟨hp, hq⟩ := (key.gcd_n_eq_one_iff c).mp h.gcd
  obtain ⟨vp, hvp⟩ := exists_opens key.p_prime key.q_ne_zero hp
  obtain ⟨vq, hvq⟩ := exists_opens key.q_prime key.p_ne_zero hq
  obtain ⟨a, b, hab⟩ := key.coprime
  refine ⟨vp * (b * key.q) + vq * (a * key.p), h.pos, h.lt, hvp.congr_value ?_,
    hvq.congr_value ?_⟩
  · exact Int.modEq_iff_dvd.mpr ⟨(vq - vp) * a, by linear_combination vp * hab⟩
  · exact Int.modEq_iff_dvd.mpr ⟨(vp - vq) * b, by linear_combination vq * hab⟩

theorem Carries.modEq (h : Carries key c v) (h' : Carries key c v') : v ≡ v' [ZMOD key.obj.n] := by
  rw [key.modEq_n_iff]
  exact ⟨h.opens_p.modEq key.p_prime key.q_ne_zero h'.opens_p,
    h.opens_q.modEq key.q_prime key.p_ne_zero h'.opens_q⟩

theorem Key.recombine_congr (key : Key) (h : v ≡ v' [ZMOD key.obj.n]) :
    key.recombine v = key.recombine v' := by
  have hpq := key.modEq_n_iff.mp h
  unfold Key.recombine
  rw [key.obj_p, key.obj_q, hpq.1.eq, hpq.2.eq, h.eq]

theorem decrypt_eq_iff_modEq (h : Carries key c v) (h' : Carries key c' v') :
    key.obj.decrypt c = key.obj.decrypt c' ↔ v ≡ v' [ZMOD key.obj.n] := by
  rw [decrypt_of_carries h, decrypt_of_carries h', Except.ok.injEq]
  constructor
  · intro heq
    exact (key.recombine_modEq v).symm.trans (heq ▸ key.recombine_modEq v')
  · exact key.recombine_congr

/-! ## The operations on any ciphertext -/

/-- **`add` and `mul` on ciphertexts of any origin.** -/
theorem decrypt_homomorphic (mpz : MpzCmp) (h₁ : IsCiphertext key c₁) (h₂ : IsCiphertext key c₂)
    (k : ℤ) :
    ∃ m₁ m₂ cAdd cMul mAdd mMul, key.obj.decrypt c₁ = .ok m₁ ∧ key.obj.decrypt c₂ = .ok m₂ ∧
      key.obj.add c₁ c₂ = .ok cAdd ∧ IsCiphertext key cAdd ∧ key.obj.decrypt cAdd = .ok mAdd ∧
      mAdd ≡ m₁ + m₂ [ZMOD key.obj.n] ∧
      key.obj.mul mpz c₁ k = .ok cMul ∧ IsCiphertext key cMul ∧ key.obj.decrypt cMul = .ok mMul ∧
      mMul ≡ m₁ * k [ZMOD key.obj.n] := by
  obtain ⟨v₁, hv₁⟩ := exists_carries h₁
  obtain ⟨v₂, hv₂⟩ := exists_carries h₂
  obtain ⟨cAdd, hadd, hcAdd⟩ := add_carries hv₁ hv₂
  obtain ⟨cMul, hmul, hcMul⟩ := mul_carries mpz hv₁ k
  have hm₁ := key.recombine_modEq v₁
  have hm₂ := key.recombine_modEq v₂
  refine ⟨_, _, cAdd, cMul, _, _, decrypt_of_carries hv₁, decrypt_of_carries hv₂, hadd,
    hcAdd.isCiphertext, decrypt_of_carries hcAdd, ?_, hmul, hcMul.isCiphertext,
    decrypt_of_carries hcMul, ?_⟩
  · exact (key.recombine_modEq _).trans (hm₁.add hm₂).symm
  · exact (key.recombine_modEq _).trans (hm₁.mul_right k).symm

theorem isCiphertext_smallKey : IsCiphertext smallKey 7 ∧ IsCiphertext smallKey 4 := by
  have hn : smallKey.obj.n = 15 := smallKey.obj_n
  have hnsquare : smallKey.obj.nsquare = 225 := smallKey.obj_nsquare
  constructor
  · exact ⟨by decide, by rw [hnsquare]; decide, by rw [hn]; decide⟩
  · exact ⟨by decide, by rw [hnsquare]; decide, by rw [hn]; decide⟩

theorem decrypt_homomorphic_smallKey :
    ∃ m₁ m₂ c m, smallKey.obj.decrypt 7 = .ok m₁ ∧ smallKey.obj.decrypt 4 = .ok m₂ ∧
      smallKey.obj.add 7 4 = .ok c ∧ smallKey.obj.decrypt c = .ok m ∧
      m ≡ m₁ + m₂ [ZMOD smallKey.obj.n] := by
  obtain ⟨m₁, m₂, c, _, m, _, hm₁, hm₂, hc, -, hm, hmod, -⟩ :=
    decrypt_homomorphic MpzCmp.sign isCiphertext_smallKey.1 isCiphertext_smallKey.2 2
  exact ⟨m₁, m₂, c, m, hm₁, hm₂, hc, hm, hmod⟩

/-- **One ciphertext for each residue**: equal ciphertexts give equal residues away, since the
obfuscator is always the same. -/
theorem encrypt_eq_iff (hbase : ¬ (65537 : ℤ) ∣ key.obj.n) (m m' : ℤ) :
    key.obj.encrypt m = key.obj.encrypt m' ↔ m ≡ m' [ZMOD key.obj.n] := by
  obtain ⟨c, hc, hcarries⟩ := encrypt_carries hbase m
  obtain ⟨c', hc', hcarries'⟩ := encrypt_carries hbase m'
  constructor
  · intro heq
    rw [hc, hc', Except.ok.injEq] at heq
    exact hcarries.modEq (heq ▸ hcarries')
  · intro hmod
    have hnude : key.obj.n * m + 1 ≡ key.obj.n * m' + 1 [ZMOD key.obj.nsquare] := by
      rw [key.nsquare_eq]
      exact hmod.mul_left'.add_right 1
    simp only [Paillier.encrypt]
    cases mpzPowm 65537 key.obj.n key.obj.nsquare with
    | error fault => rfl
    | ok obfuscator =>
      show mpzMod _ _ = mpzMod _ _
      rw [mpzMod_of_ne key.nsquare_ne_zero, mpzMod_of_ne key.nsquare_ne_zero,
        (hnude.mul_right obfuscator).eq]

theorem encrypt_eq_iff_smallKey : smallKey.obj.encrypt 4 = smallKey.obj.encrypt 19 := by
  have hn : smallKey.obj.n = 15 := smallKey.obj_n
  rw [encrypt_eq_iff smallKey_base, hn]
  decide

/-! ## Obfuscators -/

/-- `c'` is `c` times an `n`-th power. -/
def Obfuscates (key : Key) (c c' : ℤ) : Prop :=
  ∃ r, Int.gcd r key.obj.n = 1 ∧ c' = c * r ^ (key.p * key.q) % key.obj.nsquare

theorem opens_pow (hr : r.Prime) (hc : ¬ (r : ℤ) ∣ c) (s : ℕ) : Opens r s (c ^ (r * s)) 0 := by
  have h := Opens.encrypt (s := s) hr hc 0
  rwa [mul_zero, zero_add, one_mul] at h

theorem Obfuscates.carries (h : Obfuscates key c c') (hcarries : Carries key c v) :
    Carries key c' v := by
  obtain ⟨r, hgcd, rfl⟩ := h
  obtain ⟨hp, hq⟩ := (key.gcd_n_eq_one_iff r).mp hgcd
  have hopens_q := opens_pow key.q_prime hq key.p
  rw [mul_comm] at hopens_q
  have h := Carries.of_emod (hcarries.opens_p.mul key.p_prime (opens_pow key.p_prime hp key.q))
    (hcarries.opens_q.mul key.q_prime hopens_q)
  rwa [add_zero] at h

theorem opens_one (hr : r.Prime) (s : ℕ) : Opens r s 1 0 :=
  ⟨not_dvd_one hr, by rw [fermatQuotient_one, Int.cast_zero, mul_zero]⟩

/-- What carries zero is a root of unity. -/
theorem Carries.pow_modEq_one (h : Carries key c 0) :
    c ^ ((key.p - 1) * (key.q - 1)) ≡ 1 [ZMOD key.obj.nsquare] := by
  have hroot (r s : ℕ) (hr : r.Prime) (hopens : Opens r s c 0) (k : ℕ) :
      c ^ ((r - 1) * k) ≡ 1 [ZMOD (r : ℤ) ^ 2] := by
    have hquot : fermatQuotient r c = 0 := by
      rw [hopens.2, Int.cast_zero, mul_zero]
    have hone := ((pow_modEq_one_iff hr hopens.1).mpr hquot).pow k
    rwa [← pow_mul, one_pow] at hone
  have hp := hroot key.p key.q key.p_prime h.opens_p (key.q - 1)
  have hq := hroot key.q key.p key.q_prime h.opens_q (key.p - 1)
  rw [mul_comm] at hq
  rw [key.modEq_nsquare_iff]
  exact ⟨hp, hq⟩

theorem coprime_pred (hpred : ¬ key.p ∣ key.q - 1) :
    Nat.Coprime (key.p * key.q) ((key.p - 1) * (key.q - 1)) := by
  have hp := key.p_prime.two_le
  have hlt := key.lt
  have hsmall : ∀ {r k : ℕ}, 0 < k → k < r → ¬ r ∣ k := fun hpos hk hdvd => by
    have hle := Nat.le_of_dvd hpos hdvd
    omega
  rw [Nat.coprime_mul_iff_left, Nat.coprime_mul_iff_right, Nat.coprime_mul_iff_right,
    key.p_prime.coprime_iff_not_dvd, key.p_prime.coprime_iff_not_dvd,
    key.q_prime.coprime_iff_not_dvd, key.q_prime.coprime_iff_not_dvd]
  exact ⟨⟨hsmall (by omega) (by omega), hpred⟩, hsmall (by omega) (by omega),
    hsmall (by omega) (by omega)⟩

/-- What carries zero is an `n`-th power, unless `p` divides `q - 1`. -/
theorem Carries.exists_pow (hpred : ¬ key.p ∣ key.q - 1) (h : Carries key c 0) :
    ∃ r, Int.gcd r key.obj.n = 1 ∧ c ≡ r ^ (key.p * key.q) [ZMOD key.obj.nsquare] := by
  have hp := key.p_prime.two_le
  have hlt := key.lt
  have hone : 1 < (key.p - 1) * (key.q - 1) :=
    lt_of_lt_of_le (by omega) (Nat.mul_le_mul (by omega : 1 ≤ key.p - 1) (by omega : 2 ≤ key.q - 1))
  obtain ⟨k, -, hk⟩ := Nat.exists_mul_mod_eq_one_of_coprime (coprime_pred hpred) hone
  refine ⟨c ^ k, ?_, ?_⟩
  · obtain ⟨hpc, hqc⟩ := (key.gcd_n_eq_one_iff c).mp h.gcd_n
    exact (key.gcd_n_eq_one_iff _).mpr
      ⟨not_dvd_pow key.p_prime hpc k, not_dvd_pow key.q_prime hqc k⟩
  · have hexp := Nat.div_add_mod (key.p * key.q * k) ((key.p - 1) * (key.q - 1))
    have hroot := h.pow_modEq_one.pow (key.p * key.q * k / ((key.p - 1) * (key.q - 1)))
    rw [← pow_mul, mul_comm k, ← hexp, hk, pow_add, pow_mul, pow_one]
    rw [one_pow] at hroot
    simpa using (hroot.mul_right c).symm

theorem Carries.obfuscates (hpred : ¬ key.p ∣ key.q - 1) (h : Carries key c v)
    (h' : Carries key c' v) : Obfuscates key c c' := by
  obtain ⟨i, hi, hcarries⟩ := h.invert
  obtain ⟨j, hj, -, -, hmul⟩ := mpzInvert_of_gcd key.one_lt_nsquare h.gcd_nsquare
  obtain rfl : i = j := Except.ok.inj (hi.symm.trans hj)
  have hquot : Carries key (c' * i % key.obj.nsquare) 0 := by
    have hzero := Carries.of_emod (h'.opens_p.mul key.p_prime hcarries.opens_p)
      (h'.opens_q.mul key.q_prime hcarries.opens_q)
    rwa [add_neg_cancel] at hzero
  obtain ⟨r, hgcd, hr⟩ := hquot.exists_pow hpred
  refine ⟨r, hgcd, ?_⟩
  have hmod : c' ≡ c * r ^ (key.p * key.q) [ZMOD key.obj.nsquare] := by
    calc c' = c' * 1 := (mul_one c').symm
      _ ≡ c' * (c * i) [ZMOD key.obj.nsquare] := (hmul.mul_left c').symm
      _ = c * (c' * i) := by ring
      _ ≡ c * (c' * i % key.obj.nsquare) [ZMOD key.obj.nsquare] :=
        (Int.mod_modEq _ _).symm.mul_left c
      _ ≡ c * r ^ (key.p * key.q) [ZMOD key.obj.nsquare] := hr.mul_left c
  rw [← hmod.eq, Int.emod_eq_of_lt h'.pos.le h'.lt]

/-- A `q`-th power of a primitive root modulo `q`, and one modulo `p`. -/
theorem exists_not_obfuscates (key : Key) (hpred : key.p ∣ key.q - 1) :
    ∃ c, Carries key c 0 ∧ ¬ Obfuscates key 1 c := by
  have : Fact key.q.Prime := ⟨key.q_prime⟩
  obtain ⟨g, hg⟩ := IsCyclic.exists_generator (α := (ZMod key.q)ˣ)
  have horder : orderOf g = key.q - 1 := by
    rw [orderOf_eq_card_of_forall_mem_zpowers hg, Nat.card_eq_fintype_card, ZMod.card_units]
  obtain ⟨a, ha⟩ := ZMod.intCast_surjective (g : ZMod key.q)
  have hunit : ¬ (key.q : ℤ) ∣ a := by
    rw [not_dvd_iff_intCast_ne_zero, ha]
    exact g.ne_zero
  obtain ⟨s, t, hst⟩ := key.coprime.pow (m := 2) (n := 2)
  have hx_p : 1 ≡ a ^ key.q * (s * (key.p : ℤ) ^ 2) + t * (key.q : ℤ) ^ 2
      [ZMOD (key.p : ℤ) ^ 2] :=
    Int.modEq_iff_dvd.mpr ⟨(a ^ key.q - 1) * s, by linear_combination hst⟩
  have hx_q : a ^ key.q ≡ a ^ key.q * (s * (key.p : ℤ) ^ 2) + t * (key.q : ℤ) ^ 2
      [ZMOD (key.q : ℤ) ^ 2] :=
    Int.modEq_iff_dvd.mpr ⟨(1 - a ^ key.q) * t, by linear_combination a ^ key.q * hst⟩
  have hopens_q : Opens key.q key.p (a ^ key.q) 0 := by
    refine ⟨not_dvd_pow key.q_prime hunit _, ?_⟩
    rw [fermatQuotient_pow_of_dvd key.q_prime hunit dvd_rfl, Int.cast_zero, mul_zero]
  refine ⟨_, Carries.of_emod ((opens_one key.p_prime _).congr key.p_prime hx_p)
    (hopens_q.congr key.q_prime hx_q), ?_⟩
  rintro ⟨r, hgcd, hr⟩
  have hr_q : (r : ZMod key.q) ≠ 0 :=
    not_dvd_iff_intCast_ne_zero.mp ((key.gcd_n_eq_one_iff r).mp hgcd).2
  have hpow : a ^ key.q ≡ 1 * r ^ (key.p * key.q) [ZMOD key.q] := by
    have hmod := hx_q.trans (Int.ModEq.of_dvd key.qsquare_dvd_nsquare hr)
    exact hmod.of_dvd (dvd_pow_self _ two_ne_zero)
  have hroot : (g : ZMod key.q) = (r : ZMod key.q) ^ key.p := by
    have hcast := (ZMod.intCast_eq_intCast_iff _ _ _).mpr hpow
    push_cast at hcast
    rwa [ha, one_mul, pow_mul, ZMod.pow_card, ZMod.pow_card] at hcast
  obtain ⟨k, hk⟩ := hpred
  have hfull : g ^ k = 1 := by
    apply Units.ext
    rw [Units.val_pow_eq_pow_val, hroot, ← pow_mul, ← hk, ZMod.pow_card_sub_one_eq_one hr_q,
      Units.val_one]
  have hp := key.p_prime.two_le
  have hlt := key.lt
  have hpos : 0 < k := by
    rcases Nat.eq_zero_or_pos k with rfl | hpos
    · omega
    · exact hpos
  have hle := Nat.le_of_dvd hpos (orderOf_dvd_of_pow_eq_one hfull)
  have hdouble : 2 * k ≤ key.p * k := Nat.mul_le_mul_right k hp
  omega

/-- **What `decrypt` does not see**: the obfuscators and nothing else, exactly when `p` does not
divide `q - 1`. -/
theorem decrypt_eq_iff_obfuscates (key : Key) :
    (∀ c c', IsCiphertext key c → IsCiphertext key c' →
      (key.obj.decrypt c = key.obj.decrypt c' ↔ Obfuscates key c c')) ↔ ¬ key.p ∣ key.q - 1 := by
  constructor
  · intro h hpred
    obtain ⟨c, hc, hnot⟩ := exists_not_obfuscates key hpred
    have hone : Carries key 1 0 :=
      ⟨one_pos, key.one_lt_nsquare, opens_one key.p_prime _, opens_one key.q_prime _⟩
    apply hnot
    rw [← h 1 c hone.isCiphertext hc.isCiphertext, decrypt_eq_iff_modEq hone hc]
  · intro hpred c c' hc hc'
    obtain ⟨v, hv⟩ := exists_carries hc
    obtain ⟨v', hv'⟩ := exists_carries hc'
    rw [decrypt_eq_iff_modEq hv hv']
    constructor
    · intro hmod
      exact (hv.congr_value hmod).obfuscates hpred hv'
    · intro hobf
      exact (hobf.carries hv).modEq hv'

end HardApi
