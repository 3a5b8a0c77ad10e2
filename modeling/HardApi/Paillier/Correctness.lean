import HardApi.Paillier.Cipher
import HardApi.Paillier.KeyGen

/-!
# What decryption returns

Expressions built from `encrypt`, `add` and `mul` evaluate to a ciphertext that carries their
integer value (`Expr.eval_carries`, by induction on the expression), so decryption is determined by
the value alone. It is always congruent to the value modulo `n`; it is the residue in `[0, n)`
exactly when the value's residue modulo `p` is at most its residue modulo `q`, and every value in
the window `|v| < p` is of that kind, because `key_gen` leaves `p < q`.
-/

namespace HardApi

/-- Homomorphic expressions. -/
inductive Expr where
  | encrypt (m : ℤ)
  | add (e₁ e₂ : Expr)
  | mul (e : Expr) (k : ℤ)

namespace Expr

/-- The integer an expression stands for. -/
def value : Expr → ℤ
  | encrypt m => m
  | add e₁ e₂ => e₁.value + e₂.value
  | mul e k => e.value * k

/-- The calls an expression makes. -/
def eval (mpz : MpzCmp) (key : Paillier) : Expr → Except Fault ℤ
  | encrypt m => key.encrypt m
  | add e₁ e₂ => do
    let c₁ ← e₁.eval mpz key
    let c₂ ← e₂.eval mpz key
    key.add c₁ c₂
  | mul e k => do
    let c ← e.eval mpz key
    key.mul mpz c k

/-- Signed plaintexts and scalars as residues in `[0, n)`. -/
def residues (n : ℤ) : Expr → Expr
  | encrypt m => encrypt (m % n)
  | add e₁ e₂ => add (e₁.residues n) (e₂.residues n)
  | mul e k => mul (e.residues n) (k % n)

theorem residues_value (n : ℤ) (e : Expr) : (e.residues n).value ≡ e.value [ZMOD n] := by
  induction e with
  | encrypt m => exact Int.mod_modEq m n
  | add e₁ e₂ ih₁ ih₂ => exact ih₁.add ih₂
  | mul e k ih => exact ih.mul (Int.mod_modEq k n)

/-- Every evaluation succeeds, and carries the value of the expression. -/
theorem eval_carries (mpz : MpzCmp) {key : Key} (hbase : ¬ (65537 : ℤ) ∣ key.obj.n) (e : Expr) :
    ∃ c, e.eval mpz key.obj = .ok c ∧ Carries key c e.value := by
  induction e with
  | encrypt m => exact encrypt_carries hbase m
  | add e₁ e₂ ih₁ ih₂ =>
    obtain ⟨c₁, h₁, hc₁⟩ := ih₁
    obtain ⟨c₂, h₂, hc₂⟩ := ih₂
    obtain ⟨c, h, hc⟩ := add_carries hc₁ hc₂
    refine ⟨c, ?_, hc⟩
    simp only [eval, h₁, h₂, bind, Except.bind]
    exact h
  | mul e k ih =>
    obtain ⟨c₁, h₁, hc₁⟩ := ih
    obtain ⟨c, h, hc⟩ := mul_carries mpz hc₁ k
    refine ⟨c, ?_, hc⟩
    simp only [eval, h₁, bind, Except.bind]
    exact h

end Expr

/-! ## Exactness of one round trip -/

namespace Key

variable (key : Key)

theorem recombine_eq_emod_iff (v : ℤ) :
    key.recombine v = v % key.obj.n ↔ v % key.obj.p ≤ v % key.obj.q := by
  have := key.n_pos
  unfold recombine
  split_ifs with hle
  · exact iff_of_true rfl hle
  · exact iff_of_false (by omega) hle

end Key

/-- **A round trip is exact when the residue modulo `p` is at most the one modulo `q`**, and only
then: otherwise `crt` takes the remainder of a negative number and the result is negative. -/
theorem decrypt_encrypt_iff (key : Key) (hbase : ¬ (65537 : ℤ) ∣ key.obj.n) {m : ℤ} (hm : 0 ≤ m)
    (hlt : m < key.obj.n) :
    (key.obj.encrypt m >>= key.obj.decrypt) = .ok m ↔ m % key.obj.p ≤ m % key.obj.q := by
  obtain ⟨c, hc, hcarries⟩ := encrypt_carries hbase m
  have hdec : (key.obj.encrypt m >>= key.obj.decrypt) = .ok (key.recombine m) := by
    rw [hc]
    exact decrypt_of_carries hcarries
  have hmod : m % key.obj.n = m := Int.emod_eq_of_lt hm hlt
  rw [hdec, Except.ok.injEq, ← key.recombine_eq_emod_iff, hmod]

theorem smallKey_base : ¬ (65537 : ℤ) ∣ smallKey.obj.n := by
  rw [smallKey.obj_n]
  decide

theorem decrypt_encrypt_iff_smallKey :
    (smallKey.obj.encrypt 9 >>= smallKey.obj.decrypt) = .ok 9 ↔
      9 % smallKey.obj.p ≤ 9 % smallKey.obj.q :=
  decrypt_encrypt_iff smallKey smallKey_base (by norm_num) (by rw [smallKey.obj_n]; decide)

/-- The plaintext `5` under the key of `3` and `5`, whose residues are `2` and `0`. -/
theorem decrypt_encrypt_smallKey :
    Paillier.keyGen 4 [⟨2, by decide⟩, ⟨3, by decide⟩] = some (.ok smallKey.obj) ∧
      ¬ (65537 : ℤ) ∣ smallKey.obj.n ∧ 5 < smallKey.obj.n ∧
      (smallKey.obj.encrypt 5 >>= smallKey.obj.decrypt) = .ok (-10) := by
  refine ⟨keyGen_smallKey, smallKey_base, by rw [smallKey.obj_n]; decide, ?_⟩
  obtain ⟨c, hc, hcarries⟩ := encrypt_carries smallKey_base 5
  rw [hc]
  apply (decrypt_of_carries hcarries).trans
  rw [Key.recombine, smallKey.obj_p, smallKey.obj_q, smallKey.obj_n]
  decide

/-! ## Whole computations -/

/-- **Homomorphic correctness.** -/
theorem decrypt_eval_modEq (mpz : MpzCmp) (key : Key) (hbase : ¬ (65537 : ℤ) ∣ key.obj.n)
    (e : Expr) :
    ∃ c m, e.eval mpz key.obj = .ok c ∧ key.obj.decrypt c = .ok m ∧
      m ≡ e.value [ZMOD key.obj.n] := by
  obtain ⟨c, hc, hcarries⟩ := e.eval_carries mpz hbase
  exact ⟨c, _, hc, decrypt_of_carries hcarries, key.recombine_modEq e.value⟩

theorem decrypt_eval_modEq_smallKey :
    ∃ c m, ((Expr.encrypt 7).mul 13).eval MpzCmp.sign smallKey.obj = .ok c ∧
      smallKey.obj.decrypt c = .ok m ∧ m ≡ 7 * 13 [ZMOD smallKey.obj.n] :=
  decrypt_eval_modEq MpzCmp.sign smallKey smallKey_base ((Expr.encrypt 7).mul 13)

/-- In the window `|v| < p` both residues are `v`, or both are `v` plus their modulus; the second
case is where `p < q` is needed. -/
theorem Key.recombine_window (key : Key) {v : ℤ} (hlo : -key.obj.p < v) (hhi : v < key.obj.p) :
    key.recombine v = if 0 ≤ v then v else key.obj.n + v := by
  rw [key.obj_p] at hlo hhi
  have hlt : (key.p : ℤ) < key.q := by exact_mod_cast key.lt
  have hp := key.p_pos
  have hqn : (key.q : ℤ) ≤ key.p * key.q := le_mul_of_one_le_left key.q_pos.le hp
  rw [Key.recombine, key.obj_p, key.obj_q, key.obj_n]
  by_cases hv : 0 ≤ v
  · rw [Int.emod_eq_of_lt hv hhi, Int.emod_eq_of_lt hv (by omega), Int.emod_eq_of_lt hv (by omega),
      if_pos le_rfl, if_pos hv]
  · have hshift : ∀ m : ℤ, (key.p : ℤ) ≤ m → v % m = m + v := fun m hm => by
      rw [← Int.add_emod_left m v]
      exact Int.emod_eq_of_lt (by omega) (by omega)
    rw [hshift _ le_rfl, hshift _ hlt.le, hshift _ (by omega), if_pos (by omega), if_neg hv]

/-- **Exact signed results in the window `|s| < p`.** -/
theorem decrypt_eval_window (mpz : MpzCmp) (key : Key) (hbase : ¬ (65537 : ℤ) ∣ key.obj.n)
    (e : Expr) (hlo : -key.obj.p < e.value) (hhi : e.value < key.obj.p) :
    ∃ c, (e.residues key.obj.n).eval mpz key.obj = .ok c ∧
      key.obj.decrypt c = .ok (if 0 ≤ e.value then e.value else key.obj.n + e.value) := by
  obtain ⟨c, hc, hcarries⟩ := (e.residues key.obj.n).eval_carries mpz hbase
  refine ⟨c, hc, ?_⟩
  rw [decrypt_of_carries (hcarries.congr_value (e.residues_value _)),
    key.recombine_window hlo hhi]

theorem decrypt_eval_window_smallKey :
    ∃ c, (((Expr.encrypt 7).add (Expr.encrypt (-8))).mul 2 |>.residues smallKey.obj.n).eval
        MpzCmp.sign smallKey.obj = .ok c ∧
      smallKey.obj.decrypt c = .ok (if 0 ≤ (7 + -8) * 2 then (7 + -8) * 2
        else smallKey.obj.n + (7 + -8) * 2) :=
  decrypt_eval_window MpzCmp.sign smallKey smallKey_base
    (((Expr.encrypt 7).add (Expr.encrypt (-8))).mul 2) (by rw [smallKey.obj_p]; decide)
    (by rw [smallKey.obj_p]; decide)

/-! ## Preconditions -/

/-- Both `mpz_divexact` divisions of `decrypt` are exact. -/
def ExactDivisions (key : Paillier) (c : ℤ) : Prop :=
  ∃ pmp pmq lp lq, mpzPowm c key.pm1 key.psquare = .ok pmp ∧
    mpzPowm c key.qm1 key.qsquare = .ok pmq ∧ lFunc pmp key.p = .ok lp ∧ lFunc pmq key.q = .ok lq

theorem exactDivisions_iff (key : Key) (c : ℤ) :
    ExactDivisions key.obj c ↔ Int.gcd c key.obj.n = 1 := by
  simp only [ExactDivisions, key.obj_pm1, key.obj_qm1, key.obj_psquare, key.obj_qsquare,
    key.obj_p, key.obj_q, mpzPowm_pred key.p_prime, mpzPowm_pred key.q_prime, Except.ok.injEq]
  rw [key.gcd_n_eq_one_iff]
  constructor
  · rintro ⟨_, _, lp, lq, rfl, rfl, hlp, hlq⟩
    refine ⟨fun hdvd => ?_, fun hdvd => ?_⟩
    · rw [lFunc_pow_of_dvd key.p_prime hdvd] at hlp
      cases hlp
    · rw [lFunc_pow_of_dvd key.q_prime hdvd] at hlq
      cases hlq
  · rintro ⟨hp, hq⟩
    obtain ⟨lp, hlp, -⟩ := lFunc_pow key.p_prime hp
    obtain ⟨lq, hlq, -⟩ := lFunc_pow key.q_prime hq
    exact ⟨_, _, lp, lq, rfl, rfl, hlp, hlq⟩

/-- `decrypt` has no other call that can fail. -/
theorem exists_decrypt_iff (key : Key) (c : ℤ) :
    (∃ m, key.obj.decrypt c = .ok m) ↔ ExactDivisions key.obj c := by
  simp only [Paillier.decrypt, bind_ok_iff]
  constructor
  · rintro ⟨m, pmp, hpmp, pmq, hpmq, lp, hlp, lq, hlq, -⟩
    exact ⟨pmp, pmq, lp, lq, hpmp, hpmq, hlp, hlq⟩
  · rintro ⟨pmp, pmq, lp, lq, hpmp, hpmq, hlp, hlq⟩
    have hp : key.obj.p ≠ 0 := key.obj_p ▸ key.p_pos.ne'
    have hq : key.obj.q ≠ 0 := key.obj_q ▸ key.q_pos.ne'
    exact ⟨_, pmp, hpmp, pmq, hpmq, lp, hlp, lq, hlq, _, mpzTdivR_of_ne hp, _, mpzTdivR_of_ne hq,
      bind_ok_iff.mpr ⟨_, mpzTdivR_of_ne hq, rfl⟩⟩

/-- **No GMP call with a failing precondition.** `eval` is `.ok` only when every inverse that `mul`
takes on the way exists. -/
theorem gmp_preconditions (mpz : MpzCmp) (key : Key) :
    (∀ c, 0 ≤ c → c < key.obj.nsquare →
      (ExactDivisions key.obj c ↔ Int.gcd c key.obj.n = 1)) ∧
    (¬ (65537 : ℤ) ∣ key.obj.n → ∀ e : Expr,
      ∃ c, e.eval mpz key.obj = .ok c ∧ 0 < c ∧ c < key.obj.nsquare ∧
        Int.gcd c key.obj.n = 1 ∧ ExactDivisions key.obj c ∧
        (∃ i, mpzInvert c key.obj.nsquare = .ok i) ∧ ∃ m, key.obj.decrypt c = .ok m) := by
  refine ⟨fun c _ _ => exactDivisions_iff key c, fun hbase e => ?_⟩
  obtain ⟨c, hc, hcarries⟩ := e.eval_carries mpz hbase
  obtain ⟨i, hi, -⟩ := hcarries.invert
  have hexact : ExactDivisions key.obj c := (exactDivisions_iff key c).mpr hcarries.gcd_n
  exact ⟨c, hc, hcarries.pos, hcarries.lt, hcarries.gcd_n, hexact, ⟨i, hi⟩,
    (exists_decrypt_iff key c).mpr hexact⟩

theorem gmp_preconditions_smallKey :
    (ExactDivisions smallKey.obj 7 ↔ Int.gcd 7 smallKey.obj.n = 1) ∧
      ∃ c, ((Expr.encrypt 7).mul (-2)).eval MpzCmp.sign smallKey.obj = .ok c ∧
        Int.gcd c smallKey.obj.n = 1 ∧ ExactDivisions smallKey.obj c := by
  have hlt : (7 : ℤ) < smallKey.obj.nsquare := by
    rw [smallKey.obj_nsquare]
    decide
  refine ⟨(gmp_preconditions MpzCmp.sign smallKey).1 7 (by norm_num) hlt, ?_⟩
  obtain ⟨c, hc, -, -, hgcd, hexact, -⟩ :=
    (gmp_preconditions MpzCmp.sign smallKey).2 smallKey_base ((Expr.encrypt 7).mul (-2))
  exact ⟨c, hc, hgcd, hexact⟩

end HardApi
