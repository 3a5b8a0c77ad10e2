import HardApi.Lib.Words
import Mathlib.Data.Int.GCD
import Mathlib.Data.Int.ModEq
import Mathlib.Data.Nat.Size
import Mathlib.Data.Nat.Prime.Infinite
import Mathlib.RingTheory.Coprime.Lemmas
import Mathlib.RingTheory.Int.Basic
import Mathlib.Tactic.LinearCombination

/-!
# The GMP calls of the library

`mpz_class` values are integers. A call whose documented precondition fails has no documented
result: it is a `Fault`. `/` and `%` of `mpz_class` truncate toward zero, `mpz_mod`, `mpz_powm`
and `mpz_invert` return the least non-negative residue.
-/

namespace HardApi

/-- What stops a computation, or leaves its result unspecified. -/
inductive Fault where
  /-- A zero divisor or modulus, or `mpz_powm` of a negative exponent without an inverse. -/
  | divideByZero
  /-- `mpz_divexact` with a remainder. -/
  | inexactDivision
  /-- `mpz_invert` without an inverse; its return value is ignored by every caller. -/
  | noInverse
  /-- A C++ conversion, shift or memory access without defined behaviour. -/
  | undefined
  /-- A failing `assert`. -/
  | assertion
  deriving DecidableEq, Repr

theorem bind_ok_iff {ε α β : Type} {x : Except ε α} {f : α → Except ε β} {b : β} :
    x >>= f = .ok b ↔ ∃ a, x = .ok a ∧ f a = .ok b := by
  cases x with
  | error e =>
    constructor
    · intro h
      cases h
    · rintro ⟨a, h, -⟩
      cases h
  | ok a =>
    constructor
    · intro h
      exact ⟨a, rfl, h⟩
    · rintro ⟨a', h, hf⟩
      cases h
      exact hf

/-! ## Division -/

def mpzMod (n d : ℤ) : Except Fault ℤ :=
  if d = 0 then .error .divideByZero else .ok (n % d)

/-- `%` on `mpz_class`. -/
def mpzTdivR (n d : ℤ) : Except Fault ℤ :=
  if d = 0 then .error .divideByZero else .ok (n.tmod d)

/-- `/` on `mpz_class`. -/
def mpzTdivQ (n d : ℤ) : Except Fault ℤ :=
  if d = 0 then .error .divideByZero else .ok (n.tdiv d)

def mpzDivexact (n d : ℤ) : Except Fault ℤ :=
  if d = 0 then .error .divideByZero
  else if n % d = 0 then .ok (n / d)
  else .error .inexactDivision

theorem mpzMod_of_ne {n d : ℤ} (hd : d ≠ 0) : mpzMod n d = .ok (n % d) := if_neg hd

theorem mpzTdivR_of_ne {n d : ℤ} (hd : d ≠ 0) : mpzTdivR n d = .ok (n.tmod d) := if_neg hd

theorem mpzTdivQ_of_ne {n d : ℤ} (hd : d ≠ 0) : mpzTdivQ n d = .ok (n.tdiv d) := if_neg hd

theorem mpzDivexact_of_dvd {n d : ℤ} (hd : d ≠ 0) (h : d ∣ n) : mpzDivexact n d = .ok (n / d) := by
  rw [mpzDivexact, if_neg hd, if_pos (Int.emod_eq_zero_of_dvd h)]

theorem mpzDivexact_of_not_dvd {n d : ℤ} (hd : d ≠ 0) (h : ¬ d ∣ n) :
    mpzDivexact n d = .error .inexactDivision := by
  rw [mpzDivexact, if_neg hd, if_neg (fun h0 => h (Int.dvd_of_emod_eq_zero h0))]

/-! ## Modular inverse and power -/

def mpzInvert (op1 op2 : ℤ) : Except Fault ℤ :=
  if op2 = 0 then .error .divideByZero
  else if Int.gcd op1 op2 = 1 then .ok (Int.gcdA op1 op2 % op2)
  else .error .noInverse

/-- A negative exponent raises the inverse of the base to its absolute value. -/
def mpzPowm (base exp mod : ℤ) : Except Fault ℤ :=
  if mod = 0 then .error .divideByZero
  else if 0 ≤ exp then .ok (base ^ exp.toNat % mod)
  else match mpzInvert base mod with
    | .ok inverse => .ok (inverse ^ (-exp).toNat % mod)
    | .error _ => .error .divideByZero

theorem mpzInvert_of_gcd {a m : ℤ} (hm : 1 < m) (hcop : Int.gcd a m = 1) :
    ∃ i, mpzInvert a m = .ok i ∧ 0 < i ∧ i < m ∧ a * i ≡ 1 [ZMOD m] := by
  have hm0 : m ≠ 0 := by omega
  have hinv : a * (Int.gcdA a m % m) ≡ 1 [ZMOD m] := by
    refine ((Int.mod_modEq _ m).mul_left a).trans (Int.modEq_iff_dvd.mpr ⟨Int.gcdB a m, ?_⟩)
    have hbezout := Int.gcd_eq_gcd_ab a m
    rw [hcop] at hbezout
    push_cast at hbezout
    linear_combination hbezout
  refine ⟨Int.gcdA a m % m, ?_, ?_, Int.emod_lt_of_pos _ (by omega), hinv⟩
  · rw [mpzInvert, if_neg hm0, if_pos hcop]
  · have hnonneg := Int.emod_nonneg (Int.gcdA a m) hm0
    have hne : Int.gcdA a m % m ≠ 0 := by
      intro h0
      rw [h0, mul_zero] at hinv
      have hle := Int.le_of_dvd one_pos (by simpa using hinv.dvd)
      omega
    omega

theorem mpzPowm_natCast {b m : ℤ} (hm : m ≠ 0) (e : ℕ) : mpzPowm b e m = .ok (b ^ e % m) := by
  rw [mpzPowm, if_neg hm, if_pos (Int.natCast_nonneg e), Int.toNat_natCast]

theorem mpzPowm_of_nonneg {b e m : ℤ} (hm : m ≠ 0) (he : 0 ≤ e) :
    mpzPowm b e m = .ok (b ^ e.toNat % m) := by
  rw [mpzPowm, if_neg hm, if_pos he]

theorem mpzPowm_of_neg {b e m i : ℤ} (hm : m ≠ 0) (he : e < 0) (hi : mpzInvert b m = .ok i) :
    mpzPowm b e m = .ok (i ^ (-e).toNat % m) := by
  rw [mpzPowm, if_neg hm, if_neg (not_le.mpr he), hi]

/-! ## Faults

None of these calls is a memory access, so what they report is never `Fault.undefined`. -/

theorem bind_ne_error {ε α β : Type} {x : Except ε α} {f : α → Except ε β} {e : ε}
    (hx : x ≠ .error e) (hf : ∀ a, f a ≠ .error e) : x >>= f ≠ .error e := by
  cases x with
  | error e' => exact fun h => hx (congrArg _ (Except.error.inj h))
  | ok a => exact hf a

theorem mpzTdivR_ne_undefined (n d : ℤ) : mpzTdivR n d ≠ .error .undefined := by
  unfold mpzTdivR
  split_ifs <;> simp

theorem mpzDivexact_ne_undefined (n d : ℤ) : mpzDivexact n d ≠ .error .undefined := by
  unfold mpzDivexact
  split_ifs <;> simp

theorem mpzInvert_ne_undefined (op1 op2 : ℤ) : mpzInvert op1 op2 ≠ .error .undefined := by
  unfold mpzInvert
  split_ifs <;> simp

theorem mpzPowm_ne_undefined (base exp mod : ℤ) : mpzPowm base exp mod ≠ .error .undefined := by
  unfold mpzPowm
  split_ifs
  · simp
  · simp
  · cases mpzInvert base mod <;> simp

/-! ## Conversion to `long` -/

/-- `mpz_get_si`: a number that does not fit in 64 bits keeps its sign and its low 63 bits. -/
def mpzGetSi (op : ℤ) : ℤ :=
  if 0 ≤ op then op % 2 ^ 63 else -1 - (-op - 1) % 2 ^ 63

theorem mpzGetSi_of_fits {op : ℤ} (hlo : -2 ^ 63 ≤ op) (hhi : op < 2 ^ 63) :
    mpzGetSi op = op := by
  unfold mpzGetSi
  split_ifs with h
  · exact Int.emod_eq_of_lt h hhi
  · rw [Int.emod_eq_of_lt (by omega) (by omega)]
    ring

/-! ## Words -/

abbrev Word := BitVec 64

/-- `mpz_export` with 64-bit words, least significant word first, to index `off` of an array: the
array and the number of words written. The sign is ignored. -/
def mpzExport (dst : ℕ → Word) (off : ℕ) (op : ℤ) : (ℕ → Word) × ℕ :=
  (Words.storeAt dst off op.natAbs, Words.size 64 op.natAbs)

/-- `mpz_import` of `count` words. -/
def mpzImport (count : ℕ) (src : ℕ → Word) : ℤ := Words.value src count

/-! ## Comparison, size, primes -/

/-- `cmp` on `mpz_class`: only the sign of its result is documented. -/
structure MpzCmp where
  cmp : ℤ → ℤ → ℤ
  cmp_pos : ∀ a b, 0 < cmp a b ↔ b < a
  cmp_neg : ∀ a b, cmp a b < 0 ↔ a < b

/-- A comparison whose result is `-1`, `0` or `1`. -/
def MpzCmp.sign : MpzCmp where
  cmp a b := (a - b).sign
  cmp_pos a b := by rw [Int.sign_pos_iff, sub_pos]
  cmp_neg a b := by rw [Int.sign_neg_iff, sub_neg]

/-- `mpz_sizeinbase (op, 2)`. -/
def mpzSizeinbase2 (op : ℤ) : ℕ := max 1 op.natAbs.size

/-- The smallest prime above `op`. -/
def mpzNextprime (op : ℕ) : ℕ := Nat.find (Nat.exists_infinite_primes (op + 1))

theorem mpzNextprime_prime (op : ℕ) : (mpzNextprime op).Prime :=
  (Nat.find_spec (Nat.exists_infinite_primes (op + 1))).2

theorem lt_mpzNextprime (op : ℕ) : op < mpzNextprime op :=
  (Nat.find_spec (Nat.exists_infinite_primes (op + 1))).1

theorem mpzNextprime_le {op r : ℕ} (hlt : op < r) (hr : r.Prime) : mpzNextprime op ≤ r :=
  Nat.find_min' _ ⟨hlt, hr⟩

theorem mpzSizeinbase2_natCast {n : ℕ} (hn : 0 < n) : mpzSizeinbase2 (n : ℤ) = n.size := by
  rw [mpzSizeinbase2, Int.natAbs_natCast, max_eq_right (Nat.size_pos.mpr hn)]

end HardApi
