import HardApi.Paillier.Key
import Mathlib.NumberTheory.Bertrand
import Mathlib.NumberTheory.LucasPrimality
import Mathlib.Tactic.NormNum.Prime
import Mathlib.Tactic.ReduceModChar

/-!
# The loops of `key_gen`

Whatever the draws before them, the two draws that end the loops pass the tests on them
(`drawPrimes_spec`): their next primes differ and the product has exactly `keySize` bits. Hence a
run of `key_gen` that ends leaves a `Key` (`keyGen_spec`).

The tests bound the smaller prime from below: Bertrand's postulate puts the larger one under
`2 ^ (keySize / 2 + 1)`, and the product is at least `2 ^ (keySize - 1)`
(`two_pow_lt_of_accepts`).
-/

namespace HardApi

theorem mpzNextprime_eq {op r : ℕ} (hr : r.Prime) (hlt : op < r)
    (hgap : ∀ k, op < k → k < r → ¬ k.Prime) : mpzNextprime op = r := by
  apply le_antisymm (mpzNextprime_le hlt hr)
  by_contra hle
  exact hgap _ (lt_mpzNextprime op) (not_le.mp hle) (mpzNextprime_prime op)

theorem mpzNextprime_succ {op : ℕ} (hr : (op + 1).Prime) : mpzNextprime op = op + 1 :=
  mpzNextprime_eq hr (Nat.lt_succ_self op) fun k h1 h2 => by omega

/-- The next prime after an `h`-bit draw may run past `2 ^ h`, but not past `2 ^ (h + 1)`. -/
theorem mpzNextprime_lt_two_pow {h a : ℕ} (hh : 0 < h) (ha : a < 2 ^ h) :
    mpzNextprime a < 2 ^ (h + 1) := by
  have htwo : 2 ^ 1 ≤ 2 ^ h := Nat.pow_le_pow_right (by norm_num) hh
  obtain ⟨r, hr, hlt, hle⟩ := Nat.exists_prime_lt_and_le_two_mul (2 ^ h - 1) (by omega)
  have hnext : mpzNextprime a ≤ r := mpzNextprime_le (by omega) hr
  rw [pow_succ]
  omega

theorem two_pow_le_of_size {n k : ℕ} (hn : 0 < n) (hsize : mpzSizeinbase2 (n : ℤ) = k) :
    2 ^ (k - 1) ≤ n := by
  rw [mpzSizeinbase2_natCast hn] at hsize
  have hpos := Nat.size_pos.mpr hn
  exact Nat.lt_size.mp (by omega)

namespace Paillier

/-! ## The tests of the loops -/

/-- The draws `a` and `b` pass both tests. -/
structure Accepts (keySize : ℕ) (a b : Fin (2 ^ (keySize / 2))) : Prop where
  ne : mpzNextprime b ≠ mpzNextprime a
  size : mpzSizeinbase2 ((mpzNextprime a : ℤ) * mpzNextprime b) = keySize

/-- Induction on the draws; the state of the loops holds the next prime of an earlier draw. -/
theorem drawPrimes_spec {keySize : ℕ} {draws : List (Fin (2 ^ (keySize / 2)))} {st : Option ℕ}
    {p q : ℕ} (hst : ∀ r ∈ st, ∃ a : Fin (2 ^ (keySize / 2)), r = mpzNextprime a)
    (h : drawPrimes keySize st draws = some (p, q)) :
    ∃ a b, Accepts keySize a b ∧ p = mpzNextprime a ∧ q = mpzNextprime b := by
  induction draws generalizing st with
  | nil => simp [drawPrimes] at h
  | cons b draws ih =>
    cases st with
    | none =>
      refine @ih (some (mpzNextprime b)) ?_ h
      rintro r ⟨⟩
      exact ⟨b, rfl⟩
    | some r =>
      obtain ⟨a, rfl⟩ := hst r rfl
      simp only [drawPrimes] at h
      split_ifs at h with hne hsize
      · exact ih hst h
      · exact @ih none (by simp) h
      · obtain ⟨rfl, rfl⟩ := Prod.mk.inj (Option.some.inj h)
        exact ⟨a, b, ⟨hne, not_not.mp hsize⟩, rfl, rfl⟩

/-- An accepted pair is a run of the loops that ends. -/
theorem drawPrimes_of_accepts {keySize : ℕ} {a b : Fin (2 ^ (keySize / 2))}
    (h : Accepts keySize a b) :
    drawPrimes keySize none [a, b] = some (mpzNextprime a, mpzNextprime b) := by
  simp only [drawPrimes]
  rw [if_neg h.ne, if_neg (not_not.mpr h.size)]

theorem Accepts.symm {keySize : ℕ} {a b : Fin (2 ^ (keySize / 2))} (h : Accepts keySize a b) :
    Accepts keySize b a :=
  ⟨h.ne.symm, by rw [mul_comm]; exact h.size⟩

/-- The key of two draws whose next primes come in the order in which `key_gen` leaves them. -/
theorem exists_key_of_lt (keySize : ℕ) {a b : ℕ} (hlt : mpzNextprime a < mpzNextprime b) :
    ∃ key : Key, keyGenRest keySize (mpzNextprime a) (mpzNextprime b) = .ok key.obj ∧
      key.obj.keySize = keySize ∧ key.p = mpzNextprime a ∧ key.q = mpzNextprime b := by
  let pair : PrimePair := ⟨_, _, mpzNextprime_prime a, mpzNextprime_prime b, hlt⟩
  obtain ⟨pInverse, hp, hq, hrest, -⟩ := pair.keyGenRest_total keySize
  exact ⟨⟨pair, _, hrest⟩, hrest, rfl, rfl, rfl⟩

/-- **A run of `key_gen` that ends leaves a key**, made from an accepted pair of draws. -/
theorem keyGen_spec {keySize : ℕ} {draws : List (Fin (2 ^ (keySize / 2)))}
    {result : Except Fault Paillier} (h : keyGen keySize draws = some result) :
    ∃ (key : Key) (a b : Fin (2 ^ (keySize / 2))), result = .ok key.obj ∧
      key.obj.keySize = keySize ∧ Accepts keySize a b ∧
      key.p = mpzNextprime a ∧ key.q = mpzNextprime b := by
  obtain ⟨⟨p, q⟩, hdraw, rfl⟩ := Option.map_eq_some_iff.mp h
  obtain ⟨a, b, hacc, rfl, rfl⟩ := drawPrimes_spec (by simp) hdraw
  rcases lt_or_gt_of_ne hacc.ne with hlt | hlt
  · obtain ⟨key, hkey, hsize, hp, hq⟩ := exists_key_of_lt keySize hlt
    exact ⟨key, b, a, by rw [keyGenRest_comm, hkey], hsize, hacc.symm, hp, hq⟩
  · obtain ⟨key, hkey, hsize, hp, hq⟩ := exists_key_of_lt keySize hlt
    exact ⟨key, a, b, hkey, hsize, hacc, hp, hq⟩

/-! ## The smaller prime -/

/-- The lower bound on either prime of an accepted pair. -/
theorem two_pow_lt_of_accepts {keySize : ℕ} (hsize : 4 ≤ keySize)
    {a b : Fin (2 ^ (keySize / 2))} (h : Accepts keySize a b) :
    2 ^ (keySize / 2 - 2) < mpzNextprime a := by
  have hpos : 0 < mpzNextprime a * mpzNextprime b :=
    mul_pos (mpzNextprime_prime a).pos (mpzNextprime_prime b).pos
  have hprod := two_pow_le_of_size hpos (by exact_mod_cast h.size)
  have hb := mpzNextprime_lt_two_pow (by omega) b.isLt
  by_contra hle
  have hlt : mpzNextprime a * mpzNextprime b <
      2 ^ (keySize / 2 - 2) * 2 ^ (keySize / 2 + 1) :=
    Nat.mul_lt_mul_of_le_of_lt (not_lt.mp hle) hb (by positivity)
  rw [← pow_add] at hlt
  have hexp : 2 ^ (keySize / 2 - 2 + (keySize / 2 + 1)) ≤ 2 ^ (keySize - 1) :=
    Nat.pow_le_pow_right (by norm_num) (by omega)
  omega

/-- From 38 bits on both primes are larger than the obfuscator base. -/
theorem base_lt_of_accepts {keySize : ℕ} (hsize : 38 ≤ keySize)
    {a b : Fin (2 ^ (keySize / 2))} (h : Accepts keySize a b) : 65537 < mpzNextprime a := by
  have hlt := two_pow_lt_of_accepts (by omega) h
  have hexp : 2 ^ 17 ≤ 2 ^ (keySize / 2 - 2) := Nat.pow_le_pow_right (by norm_num) (by omega)
  omega

end Paillier

/-- The obfuscator of `encrypt` is a unit when no prime of the key is the base. -/
theorem Key.obfuscator_unit (key : Key) (hbase : ¬ (65537 : ℤ) ∣ key.obj.n) :
    ∃ obfuscator, mpzPowm 65537 key.obj.n key.obj.nsquare = .ok obfuscator ∧
      Int.gcd obfuscator key.obj.nsquare = 1 := by
  have hcop : IsCoprime (65537 : ℤ) key.obj.n := by
    have hprime : Prime (65537 : ℤ) := Nat.prime_iff_prime_int.mp (by norm_num)
    exact hprime.coprime_iff_not_dvd.mpr hbase
  have hne : key.obj.nsquare ≠ 0 := by
    have := key.one_lt_nsquare
    omega
  refine ⟨_, mpzPowm_of_nonneg hne key.n_pos.le, ?_⟩
  rw [Int.gcd_emod, ← Int.isCoprime_iff_gcd_eq_one, key.nsquare_eq]
  exact (hcop.mul_right hcop).pow_left

/-- **The fixed obfuscator base is usable.** -/
theorem keyGen_base_usable {keySize : ℕ} (hsize : 4 ≤ keySize)
    {draws : List (Fin (2 ^ (keySize / 2)))} {obj : Paillier}
    (hrun : Paillier.keyGen keySize draws = some (.ok obj)) :
    2 ^ (keySize / 2 - 2) < min obj.p obj.q ∧
      (38 ≤ keySize → ¬ (65537 : ℤ) ∣ obj.n ∧
        ∃ obfuscator, mpzPowm 65537 obj.n obj.nsquare = .ok obfuscator ∧
          Int.gcd obfuscator obj.nsquare = 1) := by
  obtain ⟨key, a, b, hobj, -, hacc, hp, hq⟩ := Paillier.keyGen_spec hrun
  obtain rfl := Except.ok.inj hobj
  refine ⟨?_, fun hlarge => ?_⟩
  · rw [key.obj_p, key.obj_q, hp, hq, lt_min_iff]
    exact ⟨by exact_mod_cast Paillier.two_pow_lt_of_accepts hsize hacc,
      by exact_mod_cast Paillier.two_pow_lt_of_accepts hsize hacc.symm⟩
  · have hbase : ¬ (65537 : ℤ) ∣ key.obj.n := by
      have hpa := Paillier.base_lt_of_accepts hlarge hacc
      have hqb := Paillier.base_lt_of_accepts hlarge hacc.symm
      have hprime : Nat.Prime 65537 := by norm_num
      rw [key.obj_n]
      intro hdvd
      rcases (hprime.dvd_mul (m := key.p) (n := key.q)).mp (by exact_mod_cast hdvd) with h | h
      · have := (Nat.prime_dvd_prime_iff_eq hprime key.p_prime).mp h
        omega
      · have := (Nat.prime_dvd_prime_iff_eq hprime key.q_prime).mp h
        omega
    exact ⟨hbase, key.obfuscator_unit hbase⟩

/-- A 38-bit run: the draws just below the primes `524287` and `524269`. -/
theorem keyGen_base_usable_38 :
    ∃ obj, Paillier.keyGen 38 [⟨524286, by decide⟩, ⟨524268, by decide⟩] = some (.ok obj) ∧
      2 ^ (38 / 2 - 2) < min obj.p obj.q ∧ ¬ (65537 : ℤ) ∣ obj.n ∧
        ∃ obfuscator, mpzPowm 65537 obj.n obj.nsquare = .ok obfuscator ∧
          Int.gcd obfuscator obj.nsquare = 1 := by
  have ha : mpzNextprime 524286 = 524287 := mpzNextprime_succ (by norm_num)
  have hb : mpzNextprime 524268 = 524269 := mpzNextprime_succ (by norm_num)
  have hacc : Paillier.Accepts 38 ⟨524286, by decide⟩ ⟨524268, by decide⟩ := by
    refine ⟨?_, ?_⟩
    · rw [ha, hb]
      norm_num
    · rw [ha, hb]
      decide
  obtain ⟨key, hkey, -⟩ := Paillier.exists_key_of_lt 38 (a := 524268) (b := 524286)
    (by rw [ha, hb]; norm_num)
  have hrun : Paillier.keyGen 38 [⟨524286, by decide⟩, ⟨524268, by decide⟩] =
      some (.ok key.obj) := by
    rw [Paillier.keyGen, Paillier.drawPrimes_of_accepts hacc, Option.map_some, keyGenRest_comm,
      hkey]
  have husable := keyGen_base_usable (by norm_num) hrun
  exact ⟨key.obj, hrun, husable.1, husable.2 (by norm_num)⟩

/-! ## The smallest key -/

/-- The key of the primes `3` and `5`, which a `key_size` of 4 can draw. -/
def smallKey : Key := PrimePair.key ⟨3, 5, Nat.prime_three, Nat.prime_five, by decide⟩ 4

theorem keyGen_smallKey :
    Paillier.keyGen 4 [⟨2, by decide⟩, ⟨3, by decide⟩] = some (.ok smallKey.obj) := by
  have ha : mpzNextprime 2 = 3 := mpzNextprime_succ (by norm_num)
  have hb : mpzNextprime 3 = 5 := by
    apply mpzNextprime_eq (by norm_num) (by norm_num)
    intro k h1 h2
    obtain rfl : k = 4 := by omega
    norm_num
  have hacc : Paillier.Accepts 4 ⟨2, by decide⟩ ⟨3, by decide⟩ := by
    refine ⟨?_, ?_⟩
    · rw [ha, hb]
      norm_num
    · rw [ha, hb]
      decide
  rw [Paillier.keyGen, Paillier.drawPrimes_of_accepts hacc, Option.map_some, ha, hb]
  exact congrArg some (smallKey.toPrimePair.keyGenRest_key 4)

/-! ## A key of 128 bits -/

/-- Lucas's test, with the primes of `p - 1` in a list. -/
theorem prime_of_lucas {p : ℕ} (factors : List ℕ) (e : ℕ) (a : ZMod p)
    (hprime : ∀ r ∈ factors, r.Prime) (hfactors : p - 1 ∣ factors.prod ^ e)
    (hfull : a ^ (p - 1) = 1) (hpart : ∀ r ∈ factors, a ^ ((p - 1) / r) ≠ 1) : p.Prime := by
  apply lucas_primality p a hfull
  intro r hr hdvd
  obtain ⟨s, hs, hrs⟩ := (Prime.dvd_prod_iff hr.prime).mp
    (hr.dvd_of_dvd_pow (hdvd.trans hfactors))
  rw [(Nat.prime_dvd_prime_iff_eq hr (hprime s hs)).mp hrs]
  exact hpart s hs

theorem largeKey_p_prime : Nat.Prime 15252032774857555969 := by
  apply prime_of_lucas [2, 3, 17, 101, 2693] 40 11
  · norm_num
  · norm_num
  · norm_num
    reduce_mod_char
  · simp only [List.forall_mem_cons, List.not_mem_nil]
    norm_num
    refine ⟨?_, ?_, ?_, ?_, ?_⟩
    all_goals
      reduce_mod_char
      decide

theorem largeKey_q_prime : Nat.Prime 15775993450830471851 := by
  apply prime_of_lucas [2, 5, 19, 151, 631, 1907, 3881, 23549] 2 6
  · norm_num
  · norm_num
  · norm_num
    reduce_mod_char
  · simp only [List.forall_mem_cons, List.not_mem_nil]
    norm_num
    refine ⟨?_, ?_, ?_, ?_, ?_, ?_, ?_, ?_⟩
    all_goals
      reduce_mod_char
      decide

/-- A key of two 64-bit primes, with the square of `n` just below `2 ^ 255`. -/
def largeKey : Key :=
  PrimePair.key ⟨15252032774857555969, 15775993450830471851, largeKey_p_prime, largeKey_q_prime,
    by decide⟩ 128

theorem keyGen_largeKey :
    Paillier.keyGen 128 [⟨15252032774857555968, by decide⟩, ⟨15775993450830471850, by decide⟩] =
      some (.ok largeKey.obj) := by
  have ha : mpzNextprime 15252032774857555968 = 15252032774857555969 :=
    mpzNextprime_succ largeKey_p_prime
  have hb : mpzNextprime 15775993450830471850 = 15775993450830471851 :=
    mpzNextprime_succ largeKey_q_prime
  have hacc : Paillier.Accepts 128 ⟨15252032774857555968, by decide⟩
      ⟨15775993450830471850, by decide⟩ := by
    refine ⟨?_, ?_⟩
    · rw [ha, hb]
      norm_num
    · rw [ha, hb]
      decide
  rw [Paillier.keyGen, Paillier.drawPrimes_of_accepts hacc, Option.map_some, ha, hb]
  exact congrArg some (largeKey.toPrimePair.keyGenRest_key 128)

end HardApi
