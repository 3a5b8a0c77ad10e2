import HardApi.Paillier.KeyGen

/-!
# Which primes the loops accept

The primes that a draw of `h` bits reaches are those below `2 ^ h` and the first one after
(`mpzNextprime_cases`). For an even `key_size` the test on the product leaves two primes of equal
length, or the first prime past `2 ^ h` and a smaller one (`keyGen_balanced`).

Whether any pair is accepted depends on the parity of `key_size`: two primes of half the bits
always make a product of an even number of bits (`exists_accepts_of_even`, by Bertrand's
postulate), but `key_size / 2` rounds down, and for an odd `key_size` the largest product within
reach may still be a bit short. Then no draws end the loops (`keyGen_finishes_iff`).
-/

namespace HardApi

/-- The last prime below `bound`. -/
def primeBelow (bound : ℕ) : ℕ := Nat.findGreatest Nat.Prime (bound - 1)

/-- The first prime from `bound` on. -/
def primeFrom (bound : ℕ) : ℕ := mpzNextprime (bound - 1)

section
variable {bound a r : ℕ}

theorem primeFrom_isLeast (hbound : 0 < bound) :
    IsLeast {r : ℕ | r.Prime ∧ bound ≤ r} (primeFrom bound) := by
  refine ⟨⟨mpzNextprime_prime _, ?_⟩, fun r hr => mpzNextprime_le (by have := hr.2; omega) hr.1⟩
  have := lt_mpzNextprime (bound - 1)
  unfold primeFrom
  omega

theorem mpzNextprime_le_primeFrom (ha : a < bound) : mpzNextprime a ≤ primeFrom bound := by
  have hbound : 0 < bound := by omega
  obtain ⟨⟨hprime, hle⟩, -⟩ := primeFrom_isLeast hbound
  exact mpzNextprime_le (ha.trans_le hle) hprime

/-- A draw below `bound` reaches a prime below `bound` or the first one after. -/
theorem mpzNextprime_cases (ha : a < bound) :
    mpzNextprime a < bound ∨ mpzNextprime a = primeFrom bound := by
  by_cases hlt : mpzNextprime a < bound
  · exact Or.inl hlt
  · right
    apply le_antisymm (mpzNextprime_le_primeFrom ha)
    exact (primeFrom_isLeast (by omega)).2 ⟨mpzNextprime_prime a, not_lt.mp hlt⟩

/-- Every prime is the next prime of its predecessor. -/
theorem mpzNextprime_pred (hr : r.Prime) : mpzNextprime (r - 1) = r := by
  have hpos := hr.pos
  have hsucc : r - 1 + 1 = r := by omega
  have hprime : (r - 1 + 1).Prime := by rwa [hsucc]
  have hnext := mpzNextprime_succ hprime
  rwa [hsucc] at hnext

theorem le_primeBelow (hr : r.Prime) (hlt : r < bound) : r ≤ primeBelow bound :=
  Nat.le_findGreatest (by omega) hr

theorem primeBelow_spec (hbound : 2 < bound) :
    (primeBelow bound).Prime ∧ primeBelow bound < bound := by
  refine ⟨Nat.findGreatest_spec (m := 2) (by omega) Nat.prime_two, ?_⟩
  have hle : primeBelow bound ≤ bound - 1 := Nat.findGreatest_le _
  omega

/-- Of two primes within reach the smaller one is below the bound. -/
theorem lt_bound_of_lt {b : ℕ} (ha : a < bound) (hb : b < bound)
    (hlt : mpzNextprime a < mpzNextprime b) : mpzNextprime a < bound := by
  rcases mpzNextprime_cases ha with h | h
  · exact h
  · have := mpzNextprime_le_primeFrom hb
    omega

end

theorem size_eq_iff {n k : ℕ} (hk : 0 < k) : n.size = k ↔ 2 ^ (k - 1) ≤ n ∧ n < 2 ^ k := by
  rw [← Nat.lt_size, ← Nat.size_le]
  omega

/-- The test on the product. -/
theorem sizeinbase2_mul_iff {p q k : ℕ} (hp : p.Prime) (hq : q.Prime) (hk : 0 < k) :
    mpzSizeinbase2 ((p : ℤ) * q) = k ↔ 2 ^ (k - 1) ≤ p * q ∧ p * q < 2 ^ k := by
  rw [← Nat.cast_mul, mpzSizeinbase2_natCast (Nat.mul_pos hp.pos hq.pos), size_eq_iff hk]

/-! ## Balance -/

/-- The key condition of two primes of similar size. -/
theorem gcd_totient_eq_one {p q : ℕ} (hp : p.Prime) (hq : q.Prime) (hp2 : p ≠ 2) (hlt : p < q)
    (hlt2 : q < 2 * p) : Nat.gcd (p * q) ((p - 1) * (q - 1)) = 1 := by
  have hpos := hp.two_le
  have hpp : ¬ p ∣ p - 1 := Nat.not_dvd_of_pos_of_lt (by omega) (by omega)
  have hqp : ¬ q ∣ p - 1 := Nat.not_dvd_of_pos_of_lt (by omega) (by omega)
  have hqq : ¬ q ∣ q - 1 := Nat.not_dvd_of_pos_of_lt (by omega) (by omega)
  -- `q - 1` is less than `2 * p`, and it is not `p`, because one of them is even.
  have hpq : ¬ p ∣ q - 1 := by
    rintro ⟨k, hk⟩
    have hodd := hp.odd_of_ne_two hp2
    have hodd' := hq.odd_of_ne_two (by omega)
    have hk2 : k < 2 := by
      by_contra hge
      have := Nat.mul_le_mul_left p (not_lt.mp hge)
      omega
    interval_cases k
    · omega
    · obtain ⟨i, hi⟩ := hodd
      obtain ⟨j, hj⟩ := hodd'
      omega
  exact Nat.Coprime.mul_left
    (Nat.Coprime.mul_right ((Nat.Prime.coprime_iff_not_dvd hp).mpr hpp)
      ((Nat.Prime.coprime_iff_not_dvd hp).mpr hpq))
    (Nat.Coprime.mul_right ((Nat.Prime.coprime_iff_not_dvd hq).mpr hqp)
      ((Nat.Prime.coprime_iff_not_dvd hq).mpr hqq))

/-- **Key balance.** For an even `key_size` the primes have equal length, or the larger one is the
first prime past the range of the draws. -/
theorem keyGen_balanced {h : ℕ} (hh : 3 ≤ h) {draws : List (Fin (2 ^ (2 * h / 2)))}
    {obj : Paillier} (hrun : Paillier.keyGen (2 * h) draws = some (.ok obj)) :
    (obj.p.natAbs.size = h ∧ obj.q.natAbs.size = h ∧ obj.p < obj.q ∧ obj.q < 2 * obj.p ∧
      Int.gcd obj.n ((obj.p - 1) * (obj.q - 1)) = 1) ∨
    obj.p < 2 ^ h ∧ ∃ q : ℕ, obj.q = q ∧ IsLeast {r : ℕ | r.Prime ∧ 2 ^ h ≤ r} q := by
  obtain ⟨key, a, b, hobj, -, hacc, hp, hq⟩ := Paillier.keyGen_spec hrun
  obtain rfl := Except.ok.inj hobj
  have hhalf : 2 * h / 2 = h := by omega
  have ha : (a : ℕ) < 2 ^ h := a.isLt.trans_eq (by rw [hhalf])
  have hb : (b : ℕ) < 2 ^ h := b.isLt.trans_eq (by rw [hhalf])
  have hlt := key.lt
  have hp_lt : key.p < 2 ^ h := by
    rw [hp, hq] at hlt
    rw [hp]
    exact lt_bound_of_lt ha hb hlt
  obtain ⟨hlo, -⟩ := (sizeinbase2_mul_iff key.p_prime key.q_prime (by omega)).mp
    (hp ▸ hq ▸ hacc.size)
  rw [key.obj_p, key.obj_q, key.obj_n]
  rcases mpzNextprime_cases hb with hq_lt | hq_eq
  · left
    rw [← hq] at hq_lt
    -- The product has `2 * h` bits, so neither prime is shorter than `h` bits.
    have hp_lo : 2 ^ (h - 1) < key.p := by
      by_contra hle
      have hprod : key.p * key.q < 2 ^ (h - 1) * 2 ^ h :=
        Nat.mul_lt_mul_of_le_of_lt (not_lt.mp hle) hq_lt (by positivity)
      rw [← pow_add, show h - 1 + h = 2 * h - 1 by omega] at hprod
      omega
    have hdouble : 2 ^ h = 2 * 2 ^ (h - 1) := by
      rw [← pow_succ', Nat.sub_add_cancel (by omega)]
    have hlong : 2 ^ 2 ≤ 2 ^ (h - 1) := Nat.pow_le_pow_right (by norm_num) (by omega)
    have hgcd := gcd_totient_eq_one key.p_prime key.q_prime (by omega) hlt (by omega)
    refine ⟨?_, ?_, by exact_mod_cast hlt, by omega, ?_⟩
    · rw [Int.natAbs_natCast, size_eq_iff (by omega)]
      exact ⟨hp_lo.le, hp_lt⟩
    · rw [Int.natAbs_natCast, size_eq_iff (by omega)]
      exact ⟨(hp_lo.trans hlt).le, hq_lt⟩
    · rw [← Nat.cast_pred key.p_prime.pos, ← Nat.cast_pred key.q_prime.pos]
      exact_mod_cast hgcd
  · right
    refine ⟨by exact_mod_cast hp_lt, key.q, rfl, ?_⟩
    rw [hq, hq_eq]
    exact primeFrom_isLeast (by positivity)

theorem keyGen_balanced_largeKey :
    (largeKey.obj.p.natAbs.size = 64 ∧ largeKey.obj.q.natAbs.size = 64 ∧
      largeKey.obj.p < largeKey.obj.q ∧ largeKey.obj.q < 2 * largeKey.obj.p ∧
      Int.gcd largeKey.obj.n ((largeKey.obj.p - 1) * (largeKey.obj.q - 1)) = 1) ∨
    largeKey.obj.p < 2 ^ 64 ∧
      ∃ q : ℕ, largeKey.obj.q = q ∧ IsLeast {r : ℕ | r.Prime ∧ 2 ^ 64 ≤ r} q :=
  keyGen_balanced (by decide) keyGen_largeKey

/-! ## Existence -/

namespace Paillier

variable {keySize : ℕ}

/-- A prime below `2 ^ h` and the first one after, if their product passes the test. -/
theorem exists_accepts_of_prime {h r : ℕ} (hsize : 0 < keySize) (hhalf : keySize / 2 = h)
    (hr : r.Prime) (hlt : r < 2 ^ h) (hlo : 2 ^ (keySize - 1) ≤ r * primeFrom (2 ^ h))
    (hhi : r * primeFrom (2 ^ h) < 2 ^ keySize) : ∃ a b, Accepts keySize a b := by
  subst hhalf
  have hpos := Nat.two_pow_pos (keySize / 2)
  obtain ⟨⟨hprime, hge⟩, -⟩ := primeFrom_isLeast hpos
  refine ⟨⟨r - 1, by omega⟩, ⟨2 ^ (keySize / 2) - 1, by omega⟩, ?_, ?_⟩
  · rw [mpzNextprime_pred hr, ← primeFrom]
    omega
  · rw [mpzNextprime_pred hr, ← primeFrom, sizeinbase2_mul_iff hr hprime hsize]
    exact ⟨hlo, hhi⟩

/-- The first prime past `2 ^ h`, with a prime that Bertrand's postulate puts in the interval
where the product has `2 * h` bits. -/
theorem exists_accepts_of_even {h : ℕ} (hh : 2 ≤ h) (hsize : keySize = 2 * h) :
    ∃ a b, Accepts keySize a b := by
  have hhalf : keySize / 2 = h := by omega
  obtain ⟨⟨hprime, hge⟩, -⟩ := primeFrom_isLeast (Nat.two_pow_pos h)
  have hlt : primeFrom (2 ^ h) < 2 ^ (h + 1) := mpzNextprime_lt_two_pow (by omega) (by
    have := Nat.two_pow_pos h
    omega)
  have hpow : 2 ^ (h + 1) ≤ 2 ^ (2 * h - 1) := Nat.pow_le_pow_right (by norm_num) (by omega)
  have hsquare : 2 ^ (2 * h) = 2 ^ h * 2 ^ h := by rw [← pow_add, two_mul]
  have hdouble : 2 ^ (2 * h) = 2 * 2 ^ (2 * h - 1) := by
    rw [← pow_succ', Nat.sub_add_cancel (by omega)]
  have hn : (2 ^ (2 * h - 1) - 1) / primeFrom (2 ^ h) ≠ 0 :=
    (Nat.div_pos (by omega) hprime.pos).ne'
  obtain ⟨r, hr, hrlo, hrhi⟩ := Nat.exists_prime_lt_and_le_two_mul _ hn
  have hprodLo : 2 ^ (2 * h - 1) ≤ r * primeFrom (2 ^ h) := by
    have := (Nat.div_lt_iff_lt_mul hprime.pos).mp hrlo
    omega
  have hprodHi : r * primeFrom (2 ^ h) < 2 ^ (2 * h) := by
    have hmul := Nat.mul_le_mul_right (primeFrom (2 ^ h)) hrhi
    have hdiv := Nat.div_mul_le_self (2 ^ (2 * h - 1) - 1) (primeFrom (2 ^ h))
    have hpos := Nat.two_pow_pos (2 * h - 1)
    rw [Nat.mul_assoc] at hmul
    omega
  have hr_lt : r < 2 ^ h := by
    by_contra hle
    have := Nat.mul_le_mul (not_lt.mp hle) hge
    omega
  subst hsize
  exact exists_accepts_of_prime (by omega) hhalf hr hr_lt hprodLo hprodHi

/-- For an odd `key_size` the largest product within reach decides. -/
theorem exists_accepts_iff_of_odd {h : ℕ} (hh : 2 ≤ h) (hsize : keySize = 2 * h + 1) :
    (∃ a b, Accepts keySize a b) ↔ 2 ^ (2 * h) ≤ primeBelow (2 ^ h) * primeFrom (2 ^ h) := by
  have hhalf : keySize / 2 = h := by omega
  have hfour : 2 ^ 2 ≤ 2 ^ h := Nat.pow_le_pow_right (by norm_num) hh
  constructor
  · have key : ∀ a b : Fin (2 ^ (keySize / 2)), mpzNextprime a < mpzNextprime b →
        Accepts keySize a b → 2 ^ (2 * h) ≤ primeBelow (2 ^ h) * primeFrom (2 ^ h) := by
      intro a b hlt hacc
      have ha : (a : ℕ) < 2 ^ h := a.isLt.trans_eq (by rw [hhalf])
      have hb : (b : ℕ) < 2 ^ h := b.isLt.trans_eq (by rw [hhalf])
      obtain ⟨hlo, -⟩ := (sizeinbase2_mul_iff (mpzNextprime_prime _) (mpzNextprime_prime _)
        (by omega)).mp hacc.size
      rw [show keySize - 1 = 2 * h by omega] at hlo
      exact hlo.trans (Nat.mul_le_mul (le_primeBelow (mpzNextprime_prime _)
        (lt_bound_of_lt ha hb hlt)) (mpzNextprime_le_primeFrom hb))
    rintro ⟨a, b, hacc⟩
    rcases lt_or_gt_of_ne hacc.ne with hlt | hlt
    · exact key b a hlt hacc.symm
    · exact key a b hlt hacc
  · intro hprod
    have htwo : 2 < 2 ^ h := by omega
    obtain ⟨hprime, hlt⟩ := primeBelow_spec htwo
    have hfrom : primeFrom (2 ^ h) < 2 ^ (h + 1) := mpzNextprime_lt_two_pow (by omega) (by omega)
    have hhi : primeBelow (2 ^ h) * primeFrom (2 ^ h) < 2 ^ h * 2 ^ (h + 1) :=
      Nat.mul_lt_mul'' hlt hfrom
    rw [← pow_add, show h + (h + 1) = keySize by omega] at hhi
    rw [show 2 * h = keySize - 1 by omega] at hprod
    exact exists_accepts_of_prime (by omega) hhalf hprime hlt hprod hhi

/-! ## The exit of the loops -/

/-- Draws that do not end the loops leave them at the head of one of them. -/
theorem drawPrimes_append {before : List (Fin (2 ^ (keySize / 2)))} {st : Option ℕ}
    (h : drawPrimes keySize st before = none) :
    ∃ st', ∀ after, drawPrimes keySize st (before ++ after) = drawPrimes keySize st' after := by
  induction before generalizing st with
  | nil => exact ⟨st, fun after => rfl⟩
  | cons c before ih =>
    cases st with
    | none =>
      rw [drawPrimes] at h
      exact ih h
    | some r =>
      simp only [List.cons_append, drawPrimes] at h ⊢
      split_ifs at h ⊢ with hne hsize
      · exact ih h
      · exact ih h

/-- A draw whose next prime is not the one at hand leaves the inner loop. -/
theorem drawPrimes_of_ne {r : ℕ} {c : Fin (2 ^ (keySize / 2))} (hne : mpzNextprime c ≠ r)
    (after : List (Fin (2 ^ (keySize / 2)))) :
    drawPrimes keySize (some r) (c :: after) = drawPrimes keySize none after ∨
      drawPrimes keySize (some r) (c :: after) = some (r, mpzNextprime c) := by
  rw [drawPrimes, if_neg hne]
  split_ifs
  · exact Or.inl rfl
  · exact Or.inr rfl

/-- An accepted pair ends the loops from wherever they are. -/
theorem Accepts.drawPrimes_exits {a b : Fin (2 ^ (keySize / 2))} (hacc : Accepts keySize a b)
    (st : Option ℕ) : ∃ after primes, drawPrimes keySize st after = some primes := by
  cases st with
  | none => exact ⟨_, _, drawPrimes_of_accepts hacc⟩
  | some r =>
    -- One of the two primes is not `r`, and its draw leaves the inner loop.
    have hc : ∃ c : Fin (2 ^ (keySize / 2)), mpzNextprime c ≠ r := by
      by_cases ha : mpzNextprime a = r
      · exact ⟨b, ha ▸ hacc.ne⟩
      · exact ⟨a, ha⟩
    obtain ⟨c, hc⟩ := hc
    rcases drawPrimes_of_ne hc [a, b] with h | h
    · exact ⟨_, _, h.trans (drawPrimes_of_accepts hacc)⟩
    · exact ⟨_, _, h⟩

/-- Without an accepted pair no draws end the loops. -/
theorem drawPrimes_eq_none (h : ∀ a b, ¬ Accepts keySize a b)
    (draws : List (Fin (2 ^ (keySize / 2)))) : drawPrimes keySize none draws = none := by
  cases hdraw : drawPrimes keySize none draws with
  | none => rfl
  | some primes =>
    obtain ⟨a, b, hacc, -⟩ := drawPrimes_spec (by simp) hdraw
    exact absurd hacc (h a b)

theorem exists_accepts_iff (hsize : 4 ≤ keySize) :
    (∃ a b, Accepts keySize a b) ↔ Even keySize ∨
      2 ^ (keySize - 1) ≤ primeBelow (2 ^ (keySize / 2)) * primeFrom (2 ^ (keySize / 2)) := by
  rcases Nat.even_or_odd' keySize with ⟨h, rfl | rfl⟩
  · exact iff_of_true (exists_accepts_of_even (by omega) rfl) (Or.inl (even_two_mul h))
  · have hodd : ¬ Even (2 * h + 1) := Nat.not_even_bit1 h
    rw [exists_accepts_iff_of_odd (by omega) rfl, or_iff_right hodd, Nat.add_sub_cancel,
      show (2 * h + 1) / 2 = h by omega]

end Paillier

/-- **When `key_gen` can finish.** The loops have an exit, within reach after any draws, for every
even `key_size`, and for an odd one if the largest product of two primes within reach is long
enough. -/
theorem keyGen_finishes_iff {keySize : ℕ} (hsize : 4 ≤ keySize) :
    ((∃ a b, Paillier.Accepts keySize a b) ∧
      ∀ before, Paillier.drawPrimes keySize none before = none →
        ∃ after primes, Paillier.drawPrimes keySize none (before ++ after) = some primes) ↔
    Even keySize ∨
      2 ^ (keySize - 1) ≤ primeBelow (2 ^ (keySize / 2)) * primeFrom (2 ^ (keySize / 2)) := by
  rw [← Paillier.exists_accepts_iff hsize]
  refine ⟨And.left, fun hex => ⟨hex, fun before hbefore => ?_⟩⟩
  obtain ⟨a, b, hacc⟩ := hex
  obtain ⟨st, hst⟩ := Paillier.drawPrimes_append hbefore
  obtain ⟨after, primes, hafter⟩ := hacc.drawPrimes_exits st
  exact ⟨after, primes, (hst after).trans hafter⟩

theorem keyGen_finishes_iff_1024 :
    (∃ a b, Paillier.Accepts 1024 a b) ∧
      ∀ before, Paillier.drawPrimes 1024 none before = none →
        ∃ after primes, Paillier.drawPrimes 1024 none (before ++ after) = some primes :=
  (keyGen_finishes_iff (by decide)).mpr (Or.inl (by decide))

/-- With a `key_size` of 5 the draws are below 4 and reach the primes `2`, `3` and `5`, whose
products have at most four bits. -/
theorem keyGen_never_finishes_5 :
    (¬ ∃ a b, Paillier.Accepts 5 a b) ∧ ∀ draws, Paillier.drawPrimes 5 none draws = none := by
  have hbelow : primeBelow 4 = 3 := by
    apply le_antisymm
    · exact Nat.findGreatest_le 3
    · exact le_primeBelow Nat.prime_three (by decide)
  have hfrom : primeFrom 4 = 5 := by
    apply (primeFrom_isLeast (by decide)).unique
    refine ⟨⟨Nat.prime_five, by decide⟩, fun r hr => ?_⟩
    by_contra hlt
    have hfour : r = 4 := by
      have := hr.2
      omega
    have hprime := hr.1
    rw [hfour] at hprime
    revert hprime
    decide
  have hnone : ¬ ∃ a b, Paillier.Accepts 5 a b := by
    rw [Paillier.exists_accepts_iff_of_odd (h := 2) le_rfl rfl]
    norm_num [hbelow, hfrom]
  exact ⟨hnone, Paillier.drawPrimes_eq_none fun a b hacc => hnone ⟨a, b, hacc⟩⟩

end HardApi
