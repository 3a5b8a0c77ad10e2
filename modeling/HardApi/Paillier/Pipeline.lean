import HardApi.Lib.FixedPoint
import HardApi.Paillier.Correctness
import HardApi.Paillier.Decode

/-!
# From scalars to scalars

The calls of `tests/main.cpp`, for every term instead of its four: scalars are encoded, encrypted,
added and multiplied by encoded scalars, and the result is decrypted and decoded, with `isMul`
where there was a multiplication. `runAndDecode_spec` says when what comes out is the term in fixed
point, how far that is from the term itself, and that in every other case what comes out is huge.
-/

namespace HardApi

open FixedPoint

variable {isMul : Bool} {S v : ℤ} {uninit : BitVec 64}

/-! ## What is held -/

theorem abs_tdiv_sub_le (a : ℤ) {b : ℤ} (hb : 0 < b) : |(a.tdiv b : ℚ) - a / b| ≤ 1 := by
  have hbq : (0 : ℚ) < b := by exact_mod_cast hb
  have hdiv : (a : ℚ) = b * a.tdiv b + a.tmod b := by
    exact_mod_cast (Int.mul_tdiv_add_tmod a b).symm
  have hsub : (a.tdiv b : ℚ) - a / b = -(a.tmod b / b) := by
    rw [hdiv, add_div, mul_div_cancel_left₀ _ hbq.ne']
    ring
  rw [hsub, abs_neg, abs_div, abs_of_pos hbq, div_le_one hbq, abs_le]
  have hlt := Int.tmod_lt_of_pos a hb
  have hgt := Int.lt_tmod_of_pos a hb
  constructor
  · exact_mod_cast hgt.le
  · exact_mod_cast hlt.le

theorem abs_truncate_sub_le (x : ℚ) : |(truncate x : ℚ) - x| ≤ 1 := by
  have h := abs_tdiv_sub_le x.num (b := x.den) (by exact_mod_cast x.den_pos)
  rwa [Int.cast_natCast, Rat.num_div_den] at h

/-- The plaintext of a scalar stands for its number. -/
theorem encode_modEq (key : Paillier) {x : ℚ} (hS : 1 ≤ S) (hfits : |x| * S < 2 ^ 64) :
    ∃ m, key.encode x S = .ok m ∧ m ≡ truncate (x * S) [ZMOD key.n] := by
  refine ⟨_, Paillier.encode_eq hS hfits, ?_⟩
  split_ifs
  · exact Int.add_modEq_left
  · rfl

/-! ## The calls -/

/-- The ciphertext of a term. -/
def run (mpz : MpzCmp) (key : Paillier) (S : ℤ) :
    {isMul : Bool} → Term isMul → Except Fault ℤ
  | _, .scalar x => do
    let m ← key.encode x S
    key.encrypt m
  | _, .add e₁ e₂ => do
    let c₁ ← run mpz key S e₁
    let c₂ ← run mpz key S e₂
    key.add c₁ c₂
  | _, .mul e x => do
    let c ← run mpz key S e
    let m ← key.encode x S
    key.mul mpz c m

/-- The scalar of a term. -/
def runAndDecode (mpz : MpzCmp) (key : Paillier) (uninit : BitVec 64) (S : ℤ) (e : Term isMul) :
    Except Fault Decoded := do
  let c ← run mpz key S e
  let m ← key.decrypt c
  key.decode uninit m isMul S

theorem run_carries (mpz : MpzCmp) {key : Key} (hbase : ¬ (65537 : ℤ) ∣ key.obj.n) (hS : 1 ≤ S)
    (e : Term isMul) (hfits : ∀ x ∈ e.scalars, |x| * S < 2 ^ 64) :
    ∃ c, run mpz key.obj S e = .ok c ∧ Carries key c (e.number truncate S) := by
  induction e with
  | scalar x =>
    obtain ⟨m, hm, hmod⟩ := encode_modEq key.obj hS (hfits x (by simp [Term.scalars]))
    obtain ⟨c, hc, hcarries⟩ := encrypt_carries hbase m
    refine ⟨c, ?_, hcarries.congr_value hmod⟩
    rw [run, hm]
    exact hc
  | add e₁ e₂ ih₁ ih₂ =>
    obtain ⟨c₁, hc₁, hcarries₁⟩ := ih₁ fun x hx => hfits x (by simp [Term.scalars, hx])
    obtain ⟨c₂, hc₂, hcarries₂⟩ := ih₂ fun x hx => hfits x (by simp [Term.scalars, hx])
    obtain ⟨c, hc, hcarries⟩ := add_carries hcarries₁ hcarries₂
    refine ⟨c, ?_, hcarries⟩
    rw [run, hc₁, hc₂]
    exact hc
  | mul e x ih =>
    obtain ⟨c₁, hc₁, hcarries₁⟩ := ih fun y hy => hfits y (by simp [Term.scalars, hy])
    obtain ⟨m, hm, hmod⟩ := encode_modEq key.obj hS (hfits x (by simp [Term.scalars]))
    obtain ⟨c, hc, hcarries⟩ := mul_carries mpz hcarries₁ m
    refine ⟨c, ?_, hcarries.congr_value (hmod.mul_left _)⟩
    rw [run, hc₁, hm]
    exact hc

/-! ## What is decoded -/

/-- What is read of a number, and still divided by `S`. -/
def readBack (S : ℤ) (isMul : Bool) (v : ℤ) : ℤ := if isMul then v.tdiv S else v

theorem siWord_of_fits (hlo : -2 ^ 63 ≤ v) (hhi : v < 2 ^ 63) : siWord v = BitVec.ofInt 64 v := by
  rw [siWord, mpzGetSi_of_fits hlo hhi]

theorem abs_readBack_le (S : ℤ) (isMul : Bool) (v : ℤ) : |readBack S isMul v| ≤ |v| := by
  unfold readBack
  split_ifs
  · rw [Int.abs_eq_natAbs, Int.abs_eq_natAbs, Int.natAbs_tdiv]
    exact_mod_cast Nat.div_le_self _ _
  · exact le_rfl

theorem decode_of_signed_fits {key : Paillier} {plain : ℤ} (hn : 0 < key.n) (hS : 1 ≤ S)
    (isMul : Bool) (hsigned : key.Signed plain v) (h63 : |v| < 2 ^ 63) :
    key.decode uninit plain isMul S =
      .ok ⟨[], (BitVec.ofInt 64 (readBack S isMul v)).toNat / S⟩ := by
  have hfits := abs_lt.mp ((abs_readBack_le S isMul v).trans_lt h63)
  cases isMul with
  | false =>
    have hback : readBack S false v = v := rfl
    rw [hback] at hfits ⊢
    rw [Paillier.decode_of_signed hn hsigned, siWord_of_fits (by omega) (by omega)]
  | true =>
    have hne : truncate (S : ℚ) ≠ 0 := by
      rw [truncate_intCast]
      omega
    have htdiv : key.n.tdiv 3 = key.n / 3 := Int.tdiv_eq_ediv_of_nonneg hn.le
    have hback : readBack S true v = v.tdiv S := rfl
    rw [hback] at hfits ⊢
    rcases hsigned with ⟨hlt, rfl⟩ | ⟨hgt, rfl⟩
    · rw [Paillier.decode_mul (by omega) hne, truncate_intCast,
        siWord_of_fits (by omega) (by omega)]
    · have hneg : (key.n - plain).tdiv S = -(plain - key.n).tdiv S := by
        rw [← Int.neg_tdiv, neg_sub]
      rw [Paillier.decode_mul_of_negative hgt hne, truncate_intCast, hneg,
        siWord_of_fits (by omega) (by omega), BitVec.ofInt_neg, neg_neg]

/-- What `decrypt` returns for a number in the range of `decode`. -/
theorem recombine_cases (key : Key) (hv : |v| < key.obj.n.tdiv 3) :
    if v < 0 ∨ v % key.obj.p ≤ v % key.obj.q then key.obj.Signed (key.recombine v) v
    else 0 ≤ v ∧ key.recombine v = v - key.obj.n := by
  have hn := key.n_pos
  have htdiv : key.obj.n.tdiv 3 = key.obj.n / 3 := Int.tdiv_eq_ediv_of_nonneg hn.le
  obtain ⟨hlo, hhi⟩ := abs_lt.mp hv
  unfold Key.recombine Paillier.Signed
  by_cases hneg : v < 0
  · have hmod : v % key.obj.n = key.obj.n + v := by
      rw [← Int.add_emod_left key.obj.n v]
      exact Int.emod_eq_of_lt (by omega) (by omega)
    rw [if_pos (Or.inl hneg), hmod]
    split_ifs <;> omega
  · have hmod : v % key.obj.n = v := Int.emod_eq_of_lt (by omega) (by omega)
    rw [hmod]
    split_ifs <;> omega

theorem le_toNat_siWord (h : v < 0) : (2 : ℚ) ^ 63 ≤ (siWord v).toNat := by
  have hword := toNat_siWord v
  rw [if_neg (by omega)] at hword
  have hle : 2 ^ 63 ≤ (siWord v).toNat := by omega
  exact_mod_cast hle

/-- A plaintext below zero, which `decrypt` can return for a large positive number. -/
theorem decode_of_large {key : Paillier} {plain : ℤ} (hn : 0 < key.n) (hS : 1 ≤ S)
    (hplain : plain < 0) (hscale : isMul = true → plain ≤ -S) :
    ∃ r, key.decode uninit plain isMul S = .ok r ∧ r.reports = [] ∧ 2 ^ 63 / S ≤ r.res := by
  have hSq : (0 : ℚ) < S := by exact_mod_cast hS
  have htdiv : key.n.tdiv 3 = key.n / 3 := Int.tdiv_eq_ediv_of_nonneg hn.le
  cases isMul with
  | false =>
    refine ⟨_, Paillier.decode_of_signed hn (Or.inl ⟨by omega, rfl⟩), rfl, ?_⟩
    exact div_le_div_of_nonneg_right (le_toNat_siWord (by omega)) hSq.le
  | true =>
    have hne : truncate (S : ℚ) ≠ 0 := by
      rw [truncate_intCast]
      omega
    refine ⟨_, Paillier.decode_mul (by omega) hne, rfl, ?_⟩
    rw [truncate_intCast]
    have hneg : plain.tdiv S < 0 := by
      have hle := hscale rfl
      have hquot : 1 ≤ -plain / S := (Int.le_ediv_iff_mul_le (by omega)).mpr (by omega)
      rw [← Int.tdiv_eq_ediv_of_nonneg (by omega), Int.neg_tdiv] at hquot
      omega
    exact div_le_div_of_nonneg_right (le_toNat_siWord hneg) hSq.le

/-- What is held, in the scale of the decoded scalar. -/
theorem abs_readBack_sub_exact (hS : 1 ≤ S) (e : Term isMul) :
    |(readBack S isMul (e.number truncate S) : ℚ) / S - e.exact| ≤
      e.error S + if isMul then 1 / (S : ℚ) else 0 := by
  have hpos : 0 < S := by omega
  have hnumber := abs_number_sub_exact hpos abs_truncate_sub_le e
  have hSq : (0 : ℚ) < S := by exact_mod_cast hS
  cases isMul with
  | false => simpa [readBack, unit] using hnumber
  | true =>
    have hquot := abs_tdiv_sub_le (e.number truncate S) hpos
    have hsplit : (readBack S true (e.number truncate S) : ℚ) / S - e.exact =
        ((e.number truncate S : ℚ) / unit S true - e.exact) +
          ((e.number truncate S).tdiv S - (e.number truncate S : ℚ) / S) / S := by
      simp only [readBack, unit, if_true, sq, sub_div, div_div]
      ring
    have hlast : |(((e.number truncate S).tdiv S : ℤ) - (e.number truncate S : ℚ) / S) / S| ≤
        1 / S := by
      rw [abs_div, abs_of_pos hSq]
      exact div_le_div_of_nonneg_right hquot hSq.le
    rw [hsplit, if_pos rfl]
    exact (abs_add_le _ _).trans (add_le_add hnumber hlast)

/-- **From scalars to a scalar.** -/
theorem runAndDecode_spec (mpz : MpzCmp) (key : Key) (uninit : BitVec 64)
    (hbase : ¬ (65537 : ℤ) ∣ key.obj.n) (hS : 1 ≤ S)
    (hscale : isMul = true → S ≤ key.obj.n.tdiv 3) (e : Term isMul)
    (hfits : ∀ x ∈ e.scalars, |x| * S < 2 ^ 64)
    (hn : |e.number truncate S| < key.obj.n.tdiv 3) (h63 : |e.number truncate S| < 2 ^ 63) :
    ∃ r, runAndDecode mpz key.obj uninit S e = .ok r ∧ r.reports = [] ∧
      if 0 ≤ readBack S isMul (e.number truncate S) ∧ (e.number truncate S < 0 ∨
          e.number truncate S % key.obj.p ≤ e.number truncate S % key.obj.q) then
        r.res = readBack S isMul (e.number truncate S) / S ∧
          |r.res - e.exact| ≤ e.error S + if isMul then 1 / (S : ℚ) else 0
      else 2 ^ 63 / S ≤ r.res := by
  obtain ⟨c, hc, hcarries⟩ := run_carries mpz hbase hS e hfits
  have hrun : runAndDecode mpz key.obj uninit S e =
      key.obj.decode uninit (key.recombine (e.number truncate S)) isMul S := by
    unfold runAndDecode
    rw [hc]
    show (key.obj.decrypt c >>= fun m => key.obj.decode uninit m isMul S) = _
    rw [decrypt_of_carries hcarries]
    rfl
  have hexact := abs_readBack_sub_exact hS e
  have hfits63 := abs_lt.mp ((abs_readBack_le S isMul (e.number truncate S)).trans_lt h63)
  have hSq : (0 : ℚ) < S := by exact_mod_cast hS
  have hcases := recombine_cases key hn
  rw [hrun]
  by_cases hread : e.number truncate S < 0 ∨
      e.number truncate S % key.obj.p ≤ e.number truncate S % key.obj.q
  · rw [if_pos hread] at hcases
    refine ⟨_, decode_of_signed_fits key.n_pos hS isMul hcases h63, rfl, ?_⟩
    by_cases hsign : 0 ≤ readBack S isMul (e.number truncate S)
    · have hword : ((BitVec.ofInt 64 (readBack S isMul (e.number truncate S))).toNat : ℚ) =
          readBack S isMul (e.number truncate S) := by
        rw [← Int.cast_natCast, toNat_ofInt hsign (by omega)]
      rw [if_pos ⟨hsign, hread⟩, hword]
      exact ⟨rfl, hexact⟩
    · rw [if_neg fun h => hsign h.1]
      have hword := toNat_ofInt_of_neg (v := readBack S isMul (e.number truncate S)) (by omega)
        (by omega)
      have hle : 2 ^ 63 ≤ (BitVec.ofInt 64 (readBack S isMul (e.number truncate S))).toNat := by
        omega
      exact div_le_div_of_nonneg_right (by exact_mod_cast hle) hSq.le
  · rw [if_neg hread] at hcases
    have hfail : ¬ (0 ≤ readBack S isMul (e.number truncate S) ∧ (e.number truncate S < 0 ∨
        e.number truncate S % key.obj.p ≤ e.number truncate S % key.obj.q)) := fun h => hread h.2
    simp only [if_neg hfail, hcases.2]
    have hlarge : e.number truncate S < key.obj.n.tdiv 3 := (abs_lt.mp hn).2
    have htdiv : key.obj.n.tdiv 3 = key.obj.n / 3 := Int.tdiv_eq_ediv_of_nonneg key.n_pos.le
    refine decode_of_large key.n_pos hS (by omega) fun hmul => ?_
    have hle := hscale hmul
    omega

/-- One times one, held in halves. -/
theorem runAndDecode_spec_smallKey :
    ∃ r, runAndDecode MpzCmp.sign smallKey.obj 0 2 ((Term.scalar 1).mul 1) = .ok r ∧ r.res = 1 := by
  have hone : truncate (1 * ((2 : ℤ) : ℚ)) = 2 := by
    rw [one_mul, truncate_intCast]
  have hnumber : ((Term.scalar 1).mul 1).number truncate 2 = 4 := by
    rw [Term.number, Term.number, hone]
    rfl
  have hn : smallKey.obj.n = 15 := smallKey.obj_n
  have hfits : ∀ x ∈ ((Term.scalar 1).mul 1).scalars, |x| * ((2 : ℤ) : ℚ) < 2 ^ 64 := by
    intro x hx
    obtain rfl : x = 1 := by simpa [Term.scalars] using hx
    norm_num
  obtain ⟨r, hr, -, hcases⟩ := runAndDecode_spec MpzCmp.sign smallKey 0 smallKey_base
    (by norm_num) (fun _ => by rw [hn]; decide) ((Term.scalar 1).mul 1) hfits
    (by rw [hnumber, hn]; decide) (by rw [hnumber]; decide)
  have hcond : 0 ≤ readBack 2 true 4 ∧ ((4 : ℤ) < 0 ∨ 4 % smallKey.obj.p ≤ 4 % smallKey.obj.q) := by
    rw [smallKey.obj_p, smallKey.obj_q]
    decide
  rw [hnumber, if_pos hcond] at hcases
  refine ⟨r, hr, ?_⟩
  have hback : readBack 2 true 4 = 2 := rfl
  rw [hcases.1, hback]
  norm_num

end HardApi
