import HardApi.Lib.Bands
import HardApi.Paillier.Codec

/-!
# What `decode` accepts

Without `isMul`, `decode` reads a plaintext in the bands of `key.bands`, or reports it
(`decode_of_read`, `decode_of_between`). The bands are narrow enough for a sum of two plaintexts
(`decode_add`), but they are bands of numbers of the size of `n`, and the number goes through a
64-bit word: two plaintexts of one band with the same low 63 bits are decoded alike
(`decode_injective_iff`). With `isMul` nothing is reported, and without it the reported plaintext
still gets a result, made of an uninitialised word (`not_reportsOverflow`).
-/

namespace HardApi

/-- `get_si` into a `uint64_t`. -/
def siWord (v : ℤ) : BitVec 64 := BitVec.ofInt 64 (mpzGetSi v)

theorem toNat_siWord (v : ℤ) :
    ((siWord v).toNat : ℤ) = v % 2 ^ 63 + if 0 ≤ v then 0 else 2 ^ 63 := by
  rw [siWord, BitVec.toNat_ofInt, mpzGetSi]
  split_ifs <;> omega

/-- A word keeps the sign and the low 63 bits. -/
theorem siWord_eq_iff {v w : ℤ} :
    siWord v = siWord w ↔ (v < 0 ↔ w < 0) ∧ v ≡ w [ZMOD 2 ^ 63] := by
  rw [← BitVec.toNat_inj, ← Int.natCast_inj, toNat_siWord, toNat_siWord, Int.ModEq]
  split_ifs <;> omega

namespace Paillier

variable {key : Paillier} {uninit uninit' : BitVec 64} {plain a b v x y : ℤ} {scale : ℚ}

/-! ## Bands -/

/-- The thresholds of `decode`. -/
def bands (key : Paillier) : Bands := ⟨key.n, key.n.tdiv 3, key.n.tdiv 3 * 2⟩

theorem bands_narrow (hn : 0 < key.n) : key.bands.Narrow := by
  have htdiv : key.n.tdiv 3 = key.n / 3 := Int.tdiv_eq_ediv_of_nonneg hn.le
  refine ⟨?_, ?_, ?_, ?_, ?_⟩
  all_goals
    simp only [bands, htdiv]
    omega

theorem decode_of_read (h : key.bands.read plain = some v) :
    key.decode uninit plain false scale = .ok ⟨[], (siWord v).toNat / scale⟩ := by
  unfold Bands.read at h
  split_ifs at h with hneg hpos
  · obtain rfl := Option.some.inj h
    exact decode_of_negative hneg
  · obtain rfl := Option.some.inj h
    exact decode_of_positive hneg hpos

/-- The report, and the result after it. -/
theorem decode_of_between (hneg : ¬ key.n.tdiv 3 * 2 < plain) (hpos : ¬ plain < key.n.tdiv 3) :
    key.decode uninit plain false scale =
      .ok ⟨["There is a possible OVERFLOW!\n"], uninit.toNat / scale⟩ := by
  simp only [decode, Bool.not_false, if_true, gt_iff_lt, if_neg hneg, if_neg hpos]
  rfl

theorem decode_mul (hneg : ¬ key.n.tdiv 3 * 2 < plain) (hS : truncate scale ≠ 0) :
    key.decode uninit plain true scale =
      .ok ⟨[], (siWord (plain.tdiv (truncate scale))).toNat / scale⟩ := by
  simp only [decode, Bool.not_true, gt_iff_lt, if_neg hneg, mpzTdivQ_of_ne hS]
  rfl

theorem decode_mul_of_negative (hneg : key.n.tdiv 3 * 2 < plain) (hS : truncate scale ≠ 0) :
    key.decode uninit plain true scale =
      .ok ⟨[], (-siWord ((key.n - plain).tdiv (truncate scale))).toNat / scale⟩ := by
  simp only [decode, Bool.not_true, gt_iff_lt, if_pos hneg, mpzTdivQ_of_ne hS]
  rfl

/-- `decode` takes `plain` for the number `v`. -/
def Signed (key : Paillier) (plain v : ℤ) : Prop :=
  (plain < key.n.tdiv 3 ∧ v = plain) ∨ (key.n.tdiv 3 * 2 < plain ∧ v = plain - key.n)

theorem signed_iff_read (hn : 0 < key.n) : key.Signed plain v ↔ key.bands.read plain = some v :=
  (Bands.read_eq_some_iff (bands_narrow hn)).symm

theorem decode_of_signed (hn : 0 < key.n) (h : key.Signed plain v) :
    key.decode uninit plain false scale = .ok ⟨[], (siWord v).toNat / scale⟩ :=
  decode_of_read ((signed_iff_read hn).mp h)

/-- There is no report exactly when the plaintext stands for a number. -/
theorem decode_cases (key : Paillier) (uninit : BitVec 64) (plain : ℤ) (scale : ℚ) :
    (∃ v, key.Signed plain v ∧
      key.decode uninit plain false scale = .ok ⟨[], (siWord v).toNat / scale⟩) ∨
    (∀ v, ¬ key.Signed plain v) ∧ key.decode uninit plain false scale =
      .ok ⟨["There is a possible OVERFLOW!\n"], uninit.toNat / scale⟩ := by
  by_cases hneg : key.n.tdiv 3 * 2 < plain
  · exact Or.inl ⟨_, Or.inr ⟨hneg, rfl⟩, decode_of_negative hneg⟩
  · by_cases hpos : plain < key.n.tdiv 3
    · exact Or.inl ⟨_, Or.inl ⟨hpos, rfl⟩, decode_of_positive hneg hpos⟩
    · refine Or.inr ⟨fun v hv => ?_, decode_of_between hneg hpos⟩
      rcases hv with ⟨h, -⟩ | ⟨h, -⟩
      · exact hpos h
      · exact hneg h

end Paillier

/-! ## Sums -/

section
variable {uninit uninit' : BitVec 64} {a b x y : ℤ}

/-- **One addition.** The sum of two plaintexts is decoded as the sum of their numbers or
reported, and numbers of opposite signs are never reported. -/
theorem decode_add (key : Paillier) (uninit : BitVec 64) (scale : ℚ) (ha : 0 ≤ a) (hb : 0 ≤ b)
    (han : a < key.n) (hbn : b < key.n) (hx : key.Signed a x) (hy : key.Signed b y) :
    (∀ v, key.Signed ((a + b) % key.n) v → v = x + y) ∧
    ∃ r, key.decode uninit ((a + b) % key.n) false scale = .ok r ∧
      (r.reports = [] →
        key.Signed ((a + b) % key.n) (x + y) ∧ r.res = (siWord (x + y)).toNat / scale) ∧
      ((x < 0 ↔ 0 ≤ y) → r.reports = []) := by
  have hn : 0 < key.n := by omega
  have hnarrow := Paillier.bands_narrow hn
  rw [Paillier.signed_iff_read hn] at hx hy
  have hsum : ∀ v, key.Signed ((a + b) % key.n) v → v = x + y := by
    intro v hv
    rw [Paillier.signed_iff_read hn] at hv
    exact Bands.read_add hnarrow ha hb han hbn hx hy hv
  refine ⟨hsum, ?_⟩
  rcases Paillier.decode_cases key uninit ((a + b) % key.n) scale with ⟨v, hv, hdec⟩ | ⟨hnone, hdec⟩
  · obtain rfl := hsum v hv
    exact ⟨_, hdec, fun _ => ⟨hv, rfl⟩, fun _ => rfl⟩
  · refine ⟨_, hdec, fun hreports => by simp at hreports, fun hsign => ?_⟩
    obtain ⟨v, hv⟩ := Bands.read_add_isSome hnarrow ha hb han hbn hx hy hsign
    exact absurd ((Paillier.signed_iff_read hn).mpr hv) (hnone v)

theorem decode_add_smallKey :
    ∃ r, smallKey.obj.decode 0 ((3 + 11) % smallKey.obj.n) false 1 = .ok r ∧ r.reports = [] := by
  have hn : smallKey.obj.n = 15 := smallKey.obj_n
  obtain ⟨-, r, hr, -, hopposite⟩ := decode_add smallKey.obj 0 1 (a := 3) (b := 11) (x := 3)
    (y := -4) (by norm_num) (by norm_num) (by rw [hn]; norm_num) (by rw [hn]; norm_num)
    (Or.inl ⟨by rw [hn]; decide, rfl⟩) (Or.inr ⟨by rw [hn]; decide, by rw [hn]; rfl⟩)
  exact ⟨r, hr, hopposite (by norm_num)⟩

/-! ## Aliases -/

/-- A plaintext that is not reported, with its number and the sign of it. -/
theorem exists_signed {key : Paillier} (ha : 0 ≤ a) (han : a < key.n)
    (hacc : a < key.n.tdiv 3 ∨ key.n.tdiv 3 * 2 < a) :
    ∃ x, key.Signed a x ∧ (x < 0 ↔ ¬ a < key.n.tdiv 3) ∧
      x = if a < key.n.tdiv 3 then a else a - key.n := by
  by_cases hpos : a < key.n.tdiv 3
  · refine ⟨a, Or.inl ⟨hpos, rfl⟩, ?_, (if_pos hpos).symm⟩
    exact iff_of_false (by omega) (not_not.mpr hpos)
  · refine ⟨a - key.n, Or.inr ⟨hacc.resolve_left hpos, rfl⟩, ?_, (if_neg hpos).symm⟩
    exact iff_of_true (by omega) hpos

/-- **Two plaintexts that are not reported** are decoded to different results unless they are in
the same band and agree in the low 63 bits. -/
theorem decode_injective_iff (key : Paillier) (uninit uninit' : BitVec 64) {S : ℚ} (hS : 1 ≤ S)
    (ha : 0 ≤ a) (hb : 0 ≤ b) (han : a < key.n) (hbn : b < key.n)
    (hacc : a < key.n.tdiv 3 ∨ key.n.tdiv 3 * 2 < a)
    (hacc' : b < key.n.tdiv 3 ∨ key.n.tdiv 3 * 2 < b) :
    (∃ r r', key.decode uninit a false S = .ok r ∧ key.decode uninit' b false S = .ok r' ∧
      r.reports = [] ∧ r'.reports = [] ∧ r.res ≠ r'.res) ↔
      ¬ ((a < key.n.tdiv 3 ↔ b < key.n.tdiv 3) ∧ a ≡ b [ZMOD 2 ^ 63]) := by
  have hn : 0 < key.n := by omega
  have hS0 : S ≠ 0 := by linarith
  obtain ⟨x, hx, hxsign, hxval⟩ := exists_signed ha han hacc
  obtain ⟨y, hy, hysign, hyval⟩ := exists_signed hb hbn hacc'
  have hsame : siWord x = siWord y ↔
      (a < key.n.tdiv 3 ↔ b < key.n.tdiv 3) ∧ a ≡ b [ZMOD 2 ^ 63] := by
    rw [siWord_eq_iff, hxsign, hysign, not_iff_not]
    apply and_congr_right
    intro hband
    simp only [Int.modEq_iff_dvd, hxval, hyval, hband]
    split_ifs
    · rfl
    · rw [sub_sub_sub_cancel_right]
  rw [Paillier.decode_of_signed hn hx, Paillier.decode_of_signed hn hy, ← hsame]
  constructor
  · rintro ⟨_, _, ⟨⟩, ⟨⟩, -, -, hne⟩ heq
    exact hne (by rw [heq])
  · intro hne
    refine ⟨_, _, rfl, rfl, rfl, rfl, fun heq => hne (BitVec.eq_of_toNat_eq ?_)⟩
    exact_mod_cast (div_left_inj' hS0).mp heq

theorem decode_injective_iff_smallKey :
    (∃ r r', smallKey.obj.decode 0 1 false 1 = .ok r ∧ smallKey.obj.decode 0 14 false 1 = .ok r' ∧
      r.reports = [] ∧ r'.reports = [] ∧ r.res ≠ r'.res) ↔
      ¬ ((1 < smallKey.obj.n.tdiv 3 ↔ 14 < smallKey.obj.n.tdiv 3) ∧ 1 ≡ 14 [ZMOD 2 ^ 63]) := by
  have hn : smallKey.obj.n = 15 := smallKey.obj_n
  exact decode_injective_iff smallKey.obj 0 0 le_rfl (by norm_num) (by norm_num)
    (by rw [hn]; norm_num) (by rw [hn]; norm_num) (Or.inl (by rw [hn]; decide))
    (Or.inr (by rw [hn]; decide))

/-- `0` and `2 ^ 63` under a 128-bit key. -/
theorem decode_aliases_largeKey :
    2 ^ 63 < largeKey.obj.n.tdiv 3 ∧ largeKey.obj.decode 0 0 false 1 = .ok ⟨[], 0⟩ ∧
      largeKey.obj.decode 0 (2 ^ 63) false 1 = .ok ⟨[], 0⟩ := by
  have hn : largeKey.obj.n = 15252032774857555969 * 15775993450830471851 := largeKey.obj_n
  have hlt : 2 ^ 63 < largeKey.obj.n.tdiv 3 := by
    rw [hn]
    decide
  have hzero : (siWord 0).toNat = 0 := by decide
  have htwo : (siWord (2 ^ 63)).toNat = 0 := by decide
  refine ⟨hlt, ?_, ?_⟩
  · rw [Paillier.decode_of_signed (by omega) (Or.inl ⟨by omega, rfl⟩), hzero]
    norm_num
  · rw [Paillier.decode_of_signed (by omega) (Or.inl ⟨hlt, rfl⟩), htwo]
    norm_num

/-! ## The two modes -/

/-- The word of a negative number, from its magnitude. -/
theorem neg_siWord {v : ℤ} (h0 : v < 0) (h63 : -2 ^ 63 < v) : -siWord (-v) = siWord v := by
  apply BitVec.eq_of_toInt_eq
  rw [siWord, siWord, mpzGetSi_of_fits h63.le (by omega), mpzGetSi_of_fits (by omega) (by omega),
    BitVec.ofInt_neg, neg_neg]

/-- **The two modes agree** on a product and on the number itself. -/
theorem decode_modes_agree (key : Paillier) (uninit uninit' : BitVec 64) {S v : ℤ} (hS : 1 ≤ S)
    (hv : |v| * S < key.n.tdiv 3) (h63 : |v| < 2 ^ 63) :
    ∃ r, key.decode uninit (v * S % key.n) true S = .ok r ∧
      key.decode uninit' (v % key.n) false S = .ok r := by
  have habs : |v| ≤ |v| * S := le_mul_of_one_le_right (abs_nonneg v) hS
  obtain ⟨hlo, hhi⟩ := abs_lt.mp h63
  rcases le_or_gt 0 v with h0 | h0
  · rw [abs_of_nonneg h0] at hv habs
    have hthird := tdiv_three_bounds (n := key.n) (by omega)
    refine ⟨_, Paillier.decode_mul_of_nonneg hS h0 hv hhi, ?_⟩
    rw [Int.emod_eq_of_lt h0 (by omega)]
    exact Paillier.decode_encode_of_nonneg h0 (by omega) hhi
  · rw [abs_of_neg h0, neg_mul] at hv
    rw [abs_of_neg h0, neg_mul] at habs
    have hthird := tdiv_three_bounds (n := key.n) (by omega)
    have hprod : v * S % key.n = key.n + v * S := by
      rw [← Int.add_emod_left]
      exact Int.emod_eq_of_lt (by omega) (by omega)
    have hnum : v % key.n = key.n + v := by
      rw [← Int.add_emod_left]
      exact Int.emod_eq_of_lt (by omega) (by omega)
    refine ⟨⟨[], (siWord v).toNat / S⟩, ?_, ?_⟩
    · rw [hprod, Paillier.decode_mul_of_negative (by omega) (by rw [truncate_intCast]; omega),
        truncate_intCast, sub_add_cancel_left, ← neg_mul, Int.mul_tdiv_cancel _ (by omega),
        neg_siWord h0 hlo]
    · rw [hnum, Paillier.decode_of_negative (by omega), add_sub_cancel_left]
      rfl

theorem decode_modes_agree_smallKey :
    ∃ r, smallKey.obj.decode 0 (-2 * 2 % smallKey.obj.n) true (2 : ℤ) = .ok r ∧
      smallKey.obj.decode 0 (-2 % smallKey.obj.n) false (2 : ℤ) = .ok r :=
  decode_modes_agree smallKey.obj 0 0 (by norm_num) (by rw [smallKey.obj_n]; decide) (by decide)

/-! ## The overflow band -/

/-- The overflow is reported and `res` keeps its value, whatever the uninitialised word. -/
def ReportsOverflow (key : Paillier) (plain : ℤ) (isMul : Bool) (scale res : ℚ) : Prop :=
  ∀ uninit, ∃ r, key.decode uninit plain isMul scale = .ok r ∧
    r.reports = ["There is a possible OVERFLOW!\n"] ∧ r.res = res

/-- **Overflows are never handled**: with `isMul` there is no report, and without it the result is
the uninitialised word. -/
theorem not_reportsOverflow (key : Paillier) {plain : ℤ} (isMul : Bool) {scale : ℚ} (res : ℚ)
    (hS : 1 ≤ scale) (hlo : key.n.tdiv 3 ≤ plain) (hhi : plain ≤ key.n.tdiv 3 * 2) :
    ¬ ReportsOverflow key plain isMul scale res := by
  intro h
  have hS0 : scale ≠ 0 := by linarith
  cases isMul with
  | true =>
    obtain ⟨r, hr, hreports, -⟩ := h 0
    rw [Paillier.decode_mul (not_lt.mpr hhi) (truncate_ne_zero hS)] at hr
    obtain rfl := Except.ok.inj hr
    simp at hreports
  | false =>
    have hword : ∀ uninit : BitVec 64, (uninit.toNat : ℚ) / scale = res := by
      intro uninit
      obtain ⟨r, hr, -, hres⟩ := h uninit
      rw [Paillier.decode_of_between (not_lt.mpr hhi) (not_lt.mpr hlo)] at hr
      obtain rfl := Except.ok.inj hr
      exact hres
    have heq := (div_left_inj' hS0).mp ((hword 0).trans (hword 1).symm)
    have hnat : (0 : BitVec 64).toNat = (1 : BitVec 64).toNat := by exact_mod_cast heq
    exact absurd hnat (by decide)

theorem not_reportsOverflow_smallKey : ¬ ReportsOverflow smallKey.obj 7 false 1 0 :=
  not_reportsOverflow smallKey.obj false 0 le_rfl (by rw [smallKey.obj_n]; decide)
    (by rw [smallKey.obj_n]; decide)

/-- The plaintext `7` under the key of `3` and `5` lies between the thresholds `5` and `10`. -/
theorem decode_between_smallKey :
    smallKey.obj.n.tdiv 3 ≤ 7 ∧ 7 ≤ smallKey.obj.n.tdiv 3 * 2 ∧
      smallKey.obj.decode 0 7 true 1 = .ok ⟨[], 7⟩ ∧
      smallKey.obj.decode 0 7 false 1 = .ok ⟨["There is a possible OVERFLOW!\n"], 0⟩ ∧
      smallKey.obj.decode 1 7 false 1 = .ok ⟨["There is a possible OVERFLOW!\n"], 1⟩ := by
  have hn : smallKey.obj.n = 15 := smallKey.obj_n
  have hlo : ¬ 7 < smallKey.obj.n.tdiv 3 := by rw [hn]; decide
  have hhi : ¬ smallKey.obj.n.tdiv 3 * 2 < 7 := by rw [hn]; decide
  refine ⟨not_lt.mp hlo, not_lt.mp hhi, ?_, ?_, ?_⟩
  · rw [Paillier.decode_mul hhi (truncate_ne_zero le_rfl)]
    have htruncate : truncate 1 = 1 := truncate_intCast 1
    have hword : (siWord 7).toNat = 7 := by decide
    rw [htruncate, Int.tdiv_one, hword]
    norm_num
  · rw [Paillier.decode_of_between hhi hlo]
    norm_num
  · have hone : (1 : BitVec 64).toNat = 1 := rfl
    rw [Paillier.decode_of_between hhi hlo, hone]
    norm_num

end

end HardApi
