import Mathlib.FieldTheory.Finite.Basic
import Mathlib.Tactic.LinearCombination

/-!
# The Fermat quotient

For a prime `p` and an integer `x` not divisible by `p`, Fermat's little theorem makes
`x ^ (p - 1) - 1` a multiple of `p`; the Fermat quotient of `x` is that multiple modulo `p`.
It depends on `x` modulo `p ^ 2` only (`fermatQuotient_congr`) and turns products into sums
(`fermatQuotient_mul`), so it is a discrete logarithm on the units modulo `p ^ 2`: powers become
multiples, an inverse changes the sign, every `p`-th power has quotient `0`, and
`1 + p * a` has quotient `-a`. It vanishes on the roots of unity only (`pow_modEq_one_iff`).
-/

namespace FermatQuotient

variable {p : ℕ} {x y : ℤ}

/-- `(x ^ (p - 1) - 1) / p` modulo `p`. -/
def fermatQuotient (p : ℕ) (x : ℤ) : ZMod p := ((x ^ (p - 1) - 1) / p : ℤ)

theorem not_dvd_iff_intCast_ne_zero : ¬ (p : ℤ) ∣ x ↔ (x : ZMod p) ≠ 0 := by
  rw [Ne, ZMod.intCast_zmod_eq_zero_iff_dvd]

theorem not_dvd_mul (hp : p.Prime) (hx : ¬ (p : ℤ) ∣ x) (hy : ¬ (p : ℤ) ∣ y) :
    ¬ (p : ℤ) ∣ x * y := by
  intro h
  rcases (Nat.prime_iff_prime_int.mp hp).dvd_or_dvd h with h | h
  · exact hx h
  · exact hy h

theorem not_dvd_pow (hp : p.Prime) (hx : ¬ (p : ℤ) ∣ x) (k : ℕ) : ¬ (p : ℤ) ∣ x ^ k :=
  fun h => hx ((Nat.prime_iff_prime_int.mp hp).dvd_of_dvd_pow h)

theorem not_dvd_one (hp : p.Prime) : ¬ (p : ℤ) ∣ 1 := by
  intro h
  have := Int.eq_one_of_dvd_one (by positivity) h
  have := hp.two_le
  omega

/-- Fermat's criterion, both directions: the prime `2` needs no special case, since
`x ^ 1 - 1` is even exactly when `x` is odd. -/
theorem dvd_pow_sub_one_iff (hp : p.Prime) : (p : ℤ) ∣ x ^ (p - 1) - 1 ↔ ¬ (p : ℤ) ∣ x := by
  have : Fact p.Prime := ⟨hp⟩
  rw [not_dvd_iff_intCast_ne_zero, ← ZMod.intCast_zmod_eq_zero_iff_dvd]
  push_cast
  constructor
  · intro h hx
    have hexp : p - 1 ≠ 0 := by have := hp.two_le; omega
    rw [hx, zero_pow hexp, zero_sub, neg_eq_zero] at h
    exact one_ne_zero h
  · intro hx
    rw [ZMod.pow_card_sub_one_eq_one hx, sub_self]

/-- The defining equation of the quotient, over the integers. -/
theorem pow_eq_one_add (hp : p.Prime) (hx : ¬ (p : ℤ) ∣ x) :
    x ^ (p - 1) = 1 + p * ((x ^ (p - 1) - 1) / p) := by
  rw [Int.mul_ediv_cancel' ((dvd_pow_sub_one_iff hp).mpr hx)]
  ring

/-- Any `t` with `x ^ (p - 1) ≡ 1 + p * t` modulo `p ^ 2` is the quotient. -/
theorem fermatQuotient_eq (hp : p.Prime) (hx : ¬ (p : ℤ) ∣ x) {t : ℤ}
    (h : x ^ (p - 1) ≡ 1 + p * t [ZMOD (p : ℤ) ^ 2]) : fermatQuotient p x = t := by
  have hp0 : (p : ℤ) ≠ 0 := by have := hp.pos; positivity
  obtain ⟨k, hk⟩ := h.dvd
  have hdef := pow_eq_one_add hp hx
  rw [fermatQuotient, ZMod.intCast_eq_intCast_iff_dvd_sub]
  refine ⟨k, mul_left_cancel₀ hp0 ?_⟩
  linear_combination hk + hdef

theorem pow_modEq (hp : p.Prime) (hx : ¬ (p : ℤ) ∣ x) :
    x ^ (p - 1) ≡ 1 + p * ((x ^ (p - 1) - 1) / p) [ZMOD (p : ℤ) ^ 2] := by
  rw [← pow_eq_one_add hp hx]

/-- The quotient may be read off any number congruent to `x ^ (p - 1)` modulo `p ^ 2`. -/
theorem cast_ediv_of_modEq (hp : p.Prime) (hx : ¬ (p : ℤ) ∣ x) {r : ℤ}
    (hr : r ≡ x ^ (p - 1) [ZMOD (p : ℤ) ^ 2]) :
    (p : ℤ) ∣ r - 1 ∧ (((r - 1) / p : ℤ) : ZMod p) = fermatQuotient p x := by
  have hdvd : (p : ℤ) ∣ r - 1 := by
    have h1 : (p : ℤ) ∣ x ^ (p - 1) - r := (Dvd.intro_left _ (sq (p : ℤ)).symm).trans hr.dvd
    have h2 := (dvd_pow_sub_one_iff hp).mpr hx
    have h3 : r - 1 = (x ^ (p - 1) - 1) - (x ^ (p - 1) - r) := by ring
    rw [h3]
    exact dvd_sub h2 h1
  refine ⟨hdvd, (fermatQuotient_eq hp hx ?_).symm⟩
  rw [Int.mul_ediv_cancel' hdvd]
  simpa using hr.symm

theorem fermatQuotient_congr (hp : p.Prime) (hx : ¬ (p : ℤ) ∣ x)
    (h : x ≡ y [ZMOD (p : ℤ) ^ 2]) : fermatQuotient p y = fermatQuotient p x := by
  rw [← (cast_ediv_of_modEq hp hx (h.pow (p - 1)).symm).2]
  rfl

/-- The quotient vanishes exactly on the roots of unity. -/
theorem pow_modEq_one_iff (hp : p.Prime) (hx : ¬ (p : ℤ) ∣ x) :
    x ^ (p - 1) ≡ 1 [ZMOD (p : ℤ) ^ 2] ↔ fermatQuotient p x = 0 := by
  constructor
  · intro h
    have hquot := fermatQuotient_eq hp hx (t := 0) (by simpa using h)
    rw [hquot, Int.cast_zero]
  · intro h
    obtain ⟨k, hk⟩ := (ZMod.intCast_zmod_eq_zero_iff_dvd _ _).mp h
    refine (pow_modEq hp hx).trans (Int.modEq_iff_dvd.mpr ⟨-k, ?_⟩)
    rw [hk]
    ring

/-- The quotient of a product is the sum of the quotients. -/
theorem fermatQuotient_mul (hp : p.Prime) (hx : ¬ (p : ℤ) ∣ x) (hy : ¬ (p : ℤ) ∣ y) :
    fermatQuotient p (x * y) = fermatQuotient p x + fermatQuotient p y := by
  have h := fermatQuotient_eq hp (not_dvd_mul hp hx hy)
    (t := (x ^ (p - 1) - 1) / p + (y ^ (p - 1) - 1) / p) ?_
  · rw [h]
    push_cast
    rfl
  · have hmul := (pow_modEq hp hx).mul (pow_modEq hp hy)
    rw [← mul_pow] at hmul
    refine hmul.trans (Int.modEq_iff_dvd.mpr ?_)
    -- the cross term of the product is a multiple of `p ^ 2`
    exact ⟨-((x ^ (p - 1) - 1) / p * ((y ^ (p - 1) - 1) / p)), by ring⟩

theorem fermatQuotient_one (p : ℕ) : fermatQuotient p 1 = 0 := by
  simp [fermatQuotient]

theorem fermatQuotient_pow (hp : p.Prime) (hx : ¬ (p : ℤ) ∣ x) (k : ℕ) :
    fermatQuotient p (x ^ k) = k * fermatQuotient p x := by
  induction k with
  | zero => simp [fermatQuotient_one]
  | succ k ih =>
    rw [pow_succ, fermatQuotient_mul hp (not_dvd_pow hp hx k) hx, ih]
    push_cast
    ring

/-- An `n`-th power with `p ∣ n` has quotient `0`. -/
theorem fermatQuotient_pow_of_dvd (hp : p.Prime) (hx : ¬ (p : ℤ) ∣ x) {k : ℕ} (hk : p ∣ k) :
    fermatQuotient p (x ^ k) = 0 := by
  rw [fermatQuotient_pow hp hx, (ZMod.natCast_eq_zero_iff k p).mpr hk, zero_mul]

theorem not_dvd_of_mul_modEq_one (hp : p.Prime) (h : x * y ≡ 1 [ZMOD (p : ℤ) ^ 2]) :
    ¬ (p : ℤ) ∣ x := by
  intro hx
  have h1 : (p : ℤ) ∣ 1 - x * y := (Dvd.intro_left _ (sq (p : ℤ)).symm).trans h.dvd
  have h2 := dvd_add h1 (hx.mul_right y)
  rw [sub_add_cancel] at h2
  exact not_dvd_one hp h2

theorem fermatQuotient_of_mul_modEq_one (hp : p.Prime) (h : x * y ≡ 1 [ZMOD (p : ℤ) ^ 2]) :
    fermatQuotient p y = -fermatQuotient p x := by
  have hx := not_dvd_of_mul_modEq_one hp h
  have hy := not_dvd_of_mul_modEq_one hp (x := y) (y := x) (by rwa [mul_comm])
  have hxy := fermatQuotient_congr hp (not_dvd_mul hp hx hy) h
  rw [fermatQuotient_one, fermatQuotient_mul hp hx hy] at hxy
  exact eq_neg_of_add_eq_zero_right hxy.symm

theorem not_dvd_one_add_mul (hp : p.Prime) (a : ℤ) : ¬ (p : ℤ) ∣ 1 + p * a := by
  intro h
  exact not_dvd_one hp ((dvd_add_left (dvd_mul_right _ a)).mp h)

theorem one_add_mul_pow_modEq (a : ℤ) (k : ℕ) :
    (1 + p * a) ^ k ≡ 1 + p * (k * a) [ZMOD (p : ℤ) ^ 2] := by
  induction k with
  | zero => simp
  | succ k ih =>
    rw [pow_succ (1 + (p : ℤ) * a) k]
    refine (ih.mul_right _).trans (Int.modEq_iff_dvd.mpr ⟨-(k * a * a), ?_⟩)
    push_cast
    ring

/-- The binomial expansion modulo `p ^ 2`: raising `1 + p * a` to `p - 1` leaves `1 - p * a`. -/
theorem fermatQuotient_one_add_mul (hp : p.Prime) (a : ℤ) :
    fermatQuotient p (1 + p * a) = -(a : ZMod p) := by
  rw [fermatQuotient_eq hp (not_dvd_one_add_mul hp a) (one_add_mul_pow_modEq a (p - 1))]
  have hp1 : 1 ≤ p := hp.one_le
  push_cast [hp1]
  rw [CharP.cast_eq_zero]
  ring

end FermatQuotient
