import HardApi.Paillier.KeyGen
import Mathlib.Data.Rat.Floor
import Mathlib.Tactic.Linarith

/-!
# The fixed-point codec

`encode` and `decode` of class `Paillier`, with exact rational arithmetic for the floating type.
`uint64_t` is `BitVec 64`; converting it back to `T` gives its non-negative value. `decode` takes
the value of its uninitialised `ret` as an argument.

A plaintext above `2 * (n / 3)` stands for a negative number. `encode` writes such plaintexts, but
`decode` stores the negative number in an unsigned variable, so the codec round-trips exactly on
the numbers from zero up (`decode_encode_iff`). `encode` is canonical but for the negative scalars
that truncate to zero, whose plaintext is `n` (`encode_canonical_iff`).
-/

namespace HardApi

/-- Truncation toward zero. -/
def truncate (x : ℚ) : ℤ := x.num.tdiv x.den

@[simp] theorem truncate_intCast (v : ℤ) : truncate v = v := by
  simp [truncate]

theorem truncate_neg (x : ℚ) : truncate (-x) = -truncate x := by
  simp [truncate, Int.neg_tdiv]

theorem truncate_of_nonneg {x : ℚ} (hx : 0 ≤ x) : truncate x = ⌊x⌋ := by
  rw [truncate, Rat.floor_def', Int.tdiv_eq_ediv_of_nonneg (Rat.num_nonneg.mpr hx)]

theorem truncate_nonneg {x : ℚ} (hx : 0 ≤ x) : 0 ≤ truncate x := by
  rw [truncate_of_nonneg hx]
  exact Int.floor_nonneg.mpr hx

theorem truncate_lt_iff {x : ℚ} {b : ℤ} (hx : 0 ≤ x) : truncate x < b ↔ x < b := by
  rw [truncate_of_nonneg hx, Int.floor_lt]

theorem truncate_eq_zero_iff {x : ℚ} (hx : x < 0) : truncate x = 0 ↔ -1 < x := by
  have hneg : 0 ≤ -x := by linarith
  have hlt := truncate_lt_iff (b := 1) hneg
  have hnonneg := truncate_nonneg hneg
  rw [truncate_neg] at hlt hnonneg
  constructor
  · intro h
    have hbound := hlt.mp (by omega)
    push_cast at hbound
    linarith
  · intro h
    have hbound := hlt.mpr (by push_cast; linarith)
    omega

theorem truncate_ne_zero {x : ℚ} (hx : 1 ≤ x) : truncate x ≠ 0 := by
  rw [truncate_of_nonneg (by linarith)]
  have hfloor : 1 ≤ ⌊x⌋ := Int.le_floor.mpr (by exact_mod_cast hx)
  omega

/-- `static_cast<uint64_t>` of a `T`. -/
def castUint64 (x : ℚ) : Except Fault (BitVec 64) :=
  if 0 ≤ truncate x ∧ truncate x < 2 ^ 64 then .ok (BitVec.ofInt 64 (truncate x))
  else .error .undefined

theorem toNat_ofInt {v : ℤ} (h0 : 0 ≤ v) (hlt : v < 2 ^ 64) :
    ((BitVec.ofInt 64 v).toNat : ℤ) = v := by
  rw [BitVec.toNat_ofInt]
  omega

theorem toNat_ofInt_of_neg {v : ℤ} (h0 : v < 0) (hlo : -2 ^ 64 ≤ v) :
    ((BitVec.ofInt 64 v).toNat : ℤ) = v + 2 ^ 64 := by
  rw [BitVec.toNat_ofInt]
  omega

/-- The thresholds of `decode` when the positive band is not empty. -/
theorem tdiv_three_bounds {n : ℤ} (h : 0 < n.tdiv 3) :
    n.tdiv 3 * 3 ≤ n ∧ n < n.tdiv 3 * 3 + 3 := by
  have hn : 0 ≤ n := by
    by_contra hneg
    have := Int.tdiv_nonneg (a := -n) (b := 3) (by omega) (by norm_num)
    rw [Int.neg_tdiv] at this
    omega
  rw [Int.tdiv_eq_ediv_of_nonneg hn]
  omega

/-- What `decode` leaves behind: the lines it printed and its `res`. -/
structure Decoded where
  reports : List String
  res : ℚ
  deriving DecidableEq, Repr

namespace Paillier

def encode (key : Paillier) (scalar scale : ℚ) : Except Fault ℤ := do
  let flag := scalar < 0
  let scalar := if flag then -scalar else scalar
  let afterScale ← castUint64 (scalar * scale)
  if flag then return key.n - afterScale.toNat
  else return afterScale.toNat

/-- `uninit` is what `uint64_t ret;` holds before the first assignment. -/
def decode (key : Paillier) (uninit : BitVec 64) (plain : ℤ) (isMul : Bool) (scaleFactor : ℚ) :
    Except Fault Decoded := do
  let maxInt := key.n.tdiv 3
  let forNegative := maxInt * 2
  let isPositive := maxInt > plain
  let isNegative := plain > forNegative
  let (ret, reports) ←
    if !isMul then
      if isNegative then
        let tmp := plain - key.n
        pure (BitVec.ofInt 64 (mpzGetSi tmp), [])
      else if isPositive then
        pure (BitVec.ofInt 64 (mpzGetSi plain), [])
      else
        pure (uninit, ["There is a possible OVERFLOW!\n"])
    else do
      let tmp ← mpzTdivQ (if isNegative then key.n - plain else plain) (truncate scaleFactor)
      let ret := BitVec.ofInt 64 (mpzGetSi tmp)
      pure (if isNegative then -ret else ret, [])
  return ⟨reports, ret.toNat / scaleFactor⟩

variable {key : Paillier} {uninit : BitVec 64} {plain : ℤ} {scale : ℚ}

/-! ## The branches of `decode` -/

theorem decode_of_negative (h : key.n.tdiv 3 * 2 < plain) :
    key.decode uninit plain false scale =
      .ok ⟨[], (BitVec.ofInt 64 (mpzGetSi (plain - key.n))).toNat / scale⟩ := by
  simp only [decode, Bool.not_false, if_true, gt_iff_lt, if_pos h]
  rfl

theorem decode_of_positive (hneg : ¬ key.n.tdiv 3 * 2 < plain) (h : plain < key.n.tdiv 3) :
    key.decode uninit plain false scale =
      .ok ⟨[], (BitVec.ofInt 64 (mpzGetSi plain)).toNat / scale⟩ := by
  simp only [decode, Bool.not_false, if_true, gt_iff_lt, if_neg hneg, if_pos h]
  rfl

theorem decode_mul_of_not_negative (hneg : ¬ key.n.tdiv 3 * 2 < plain) {S : ℤ} (hS : S ≠ 0) :
    key.decode uninit plain true S =
      .ok ⟨[], (BitVec.ofInt 64 (mpzGetSi (plain.tdiv S))).toNat / S⟩ := by
  simp only [decode, Bool.not_true, gt_iff_lt, if_neg hneg, truncate_intCast, mpzTdivQ_of_ne hS]
  rfl

/-! ## The branches of `encode` -/

section
variable {S : ℤ} {x : ℚ}

/-- The plaintext of a scalar. -/
theorem encode_eq (hS : 1 ≤ S) (hfits : |x| * S < 2 ^ 64) :
    key.encode x S =
      .ok (if x < 0 then key.n + truncate (x * S) else truncate (x * S)) := by
  have hSq : (0 : ℚ) < S := by exact_mod_cast hS
  have hcast : ∀ z : ℚ, 0 ≤ z → z * S < 2 ^ 64 →
      castUint64 (z * S) = .ok (BitVec.ofInt 64 (truncate (z * S))) ∧
        ((BitVec.ofInt 64 (truncate (z * S))).toNat : ℤ) = truncate (z * S) := by
    intro z hz hlt
    have hzS : 0 ≤ z * S := by positivity
    have h0 := truncate_nonneg hzS
    have h64 : truncate (z * S) < 2 ^ 64 := (truncate_lt_iff hzS).mpr (by exact_mod_cast hlt)
    exact ⟨if_pos ⟨h0, h64⟩, toNat_ofInt h0 h64⟩
  by_cases hx : x < 0
  · rw [abs_of_neg hx] at hfits
    obtain ⟨hword, hnat⟩ := hcast (-x) (by linarith) hfits
    simp only [encode, if_pos hx, hword, bind, Except.bind, hnat]
    rw [neg_mul, truncate_neg, sub_neg_eq_add]
    rfl
  · rw [abs_of_nonneg (not_lt.mp hx)] at hfits
    obtain ⟨hword, hnat⟩ := hcast x (not_lt.mp hx) hfits
    simp only [encode, if_neg hx, hword, bind, Except.bind, hnat]
    rfl

/-- The truncated scalar, in the signed range of the codec. -/
theorem truncate_bounds (hS : 1 ≤ S) (hx : |x| * S < key.n.tdiv 3) :
    (x < 0 → truncate (x * S) ≤ 0 ∧ (truncate (x * S) = 0 ↔ -1 < x * S)) ∧
      (¬ x < 0 → 0 ≤ truncate (x * S)) ∧
      -key.n.tdiv 3 < truncate (x * S) ∧ truncate (x * S) < key.n.tdiv 3 := by
  have hSq : (0 : ℚ) < S := by exact_mod_cast hS
  by_cases h : x < 0
  · have hxS : x * S < 0 := mul_neg_of_neg_of_pos h hSq
    have hneg : 0 ≤ -(x * S) := by linarith
    have h0 := truncate_nonneg hneg
    have hlt := (truncate_lt_iff (b := key.n.tdiv 3) hneg).mpr (by
      rwa [abs_of_neg h, neg_mul] at hx)
    rw [truncate_neg] at h0 hlt
    exact ⟨fun _ => ⟨by omega, truncate_eq_zero_iff hxS⟩, fun h' => absurd h h', by omega, by omega⟩
  · have hxS : 0 ≤ x * S := mul_nonneg (not_lt.mp h) hSq.le
    have h0 := truncate_nonneg hxS
    have hlt := (truncate_lt_iff (b := key.n.tdiv 3) hxS).mpr (by
      rwa [abs_of_nonneg (not_lt.mp h)] at hx)
    exact ⟨fun h' => absurd h' h, fun _ => h0, by omega, hlt⟩

end

/-! ## Encoding an integer multiple of `1 / S` -/

variable {S v : ℤ}

theorem encode_of_nonneg (hS : 1 ≤ S) (h0 : 0 ≤ v) (hlt : v < 2 ^ 64) :
    key.encode (v / S) S = .ok v := by
  have hSq : (0 : ℚ) < S := by exact_mod_cast hS
  have hv : (0 : ℚ) ≤ v / S := div_nonneg (by exact_mod_cast h0) hSq.le
  have hscale : (v : ℚ) / S * S = v := div_mul_cancel₀ _ hSq.ne'
  have hfits : |(v : ℚ) / S| * S < 2 ^ 64 := by
    rw [abs_of_nonneg hv, hscale]
    exact_mod_cast hlt
  rw [encode_eq hS hfits, if_neg (not_lt.mpr hv), hscale, truncate_intCast]

theorem encode_of_neg (hS : 1 ≤ S) (h0 : v < 0) (hlo : -2 ^ 64 < v) :
    key.encode (v / S) S = .ok (key.n + v) := by
  have hSq : (0 : ℚ) < S := by exact_mod_cast hS
  have hv : (v : ℚ) / S < 0 := div_neg_of_neg_of_pos (by exact_mod_cast h0) hSq
  have hscale : (v : ℚ) / S * S = v := div_mul_cancel₀ _ hSq.ne'
  have hfits : |(v : ℚ) / S| * S < 2 ^ 64 := by
    rw [abs_of_neg hv, neg_mul, hscale]
    have hlo' : (-2 ^ 64 : ℚ) < v := by exact_mod_cast hlo
    linarith
  rw [encode_eq hS hfits, if_pos hv, hscale, truncate_intCast]

/-! ## The round trip -/

theorem decode_encode_of_nonneg (h0 : 0 ≤ v) (hv : v < key.n.tdiv 3)
    (h63 : v < 2 ^ 63) : key.decode uninit v false S = .ok ⟨[], v / S⟩ := by
  rw [decode_of_positive (by omega) hv, mpzGetSi_of_fits (by omega) h63,
    ← Int.cast_natCast (BitVec.toNat _), toNat_ofInt h0 (by omega)]

theorem decode_mul_of_nonneg (hS : 1 ≤ S) (h0 : 0 ≤ v) (hv : v * S < key.n.tdiv 3)
    (h63 : v < 2 ^ 63) : key.decode uninit (v * S % key.n) true S = .ok ⟨[], v / S⟩ := by
  have hvS : 0 ≤ v * S := mul_nonneg h0 (by omega)
  have hn := tdiv_three_bounds (n := key.n) (by omega)
  rw [Int.emod_eq_of_lt hvS (by omega), decode_mul_of_not_negative (by omega) (by omega),
    Int.mul_tdiv_cancel _ (by omega), mpzGetSi_of_fits (by omega) h63,
    ← Int.cast_natCast (BitVec.toNat _), toNat_ofInt h0 (by omega)]

/-- A negative number comes back as its two's complement, `2 ^ 64` above the truth. -/
theorem decode_encode_of_neg (h0 : v < 0) (hv : -v < key.n.tdiv 3) (h63 : -2 ^ 63 < v) :
    key.decode uninit (key.n + v) false S = .ok ⟨[], (v + 2 ^ 64 : ℤ) / S⟩ := by
  have hn := tdiv_three_bounds (n := key.n) (by omega)
  rw [decode_of_negative (by omega), add_sub_cancel_left, mpzGetSi_of_fits h63.le (by omega),
    ← Int.cast_natCast (BitVec.toNat _), toNat_ofInt_of_neg h0 (by omega)]

end Paillier

/-- **The codec round-trips exactly on the numbers from zero up.** -/
theorem decode_encode_iff (key : Paillier) (uninit : BitVec 64) {S v : ℤ} (hS : 1 ≤ S)
    (hv : |v| < key.n.tdiv 3) (h63 : |v| < 2 ^ 63) :
    ((∃ m, key.encode (v / S) S = .ok m ∧ key.decode uninit m false S = .ok ⟨[], v / S⟩) ∧
      (|v| * S < key.n.tdiv 3 →
        key.decode uninit (v * S % key.n) true S = .ok ⟨[], v / S⟩)) ↔ 0 ≤ v := by
  obtain ⟨hvlo, hvhi⟩ := abs_lt.mp hv
  obtain ⟨hlo, hhi⟩ := abs_lt.mp h63
  constructor
  · rintro ⟨⟨m, hm, hdec⟩, -⟩
    by_contra h0
    rw [Paillier.encode_of_neg hS (by omega) (by omega)] at hm
    obtain rfl := Except.ok.inj hm
    rw [Paillier.decode_encode_of_neg (by omega) (by omega) hlo, Except.ok.injEq,
      Decoded.mk.injEq] at hdec
    have hSq : (S : ℚ) ≠ 0 := by
      have : S ≠ 0 := by omega
      exact_mod_cast this
    have heq : v + 2 ^ 64 = v := by exact_mod_cast (div_left_inj' hSq).mp hdec.2
    omega
  · intro h0
    refine ⟨⟨v, Paillier.encode_of_nonneg hS h0 (by omega),
      Paillier.decode_encode_of_nonneg h0 hvhi hhi⟩, fun hvS => ?_⟩
    rw [abs_of_nonneg h0] at hvS
    exact Paillier.decode_mul_of_nonneg hS h0 hvS hhi

theorem decode_encode_iff_smallKey :
    ((∃ m, smallKey.obj.encode ((2 : ℤ) / (2 : ℤ)) (2 : ℤ) = .ok m ∧
        smallKey.obj.decode 0 m false (2 : ℤ) = .ok ⟨[], (2 : ℤ) / (2 : ℤ)⟩) ∧
      (|(2 : ℤ)| * 2 < smallKey.obj.n.tdiv 3 →
        smallKey.obj.decode 0 (2 * 2 % smallKey.obj.n) true (2 : ℤ) =
          .ok ⟨[], (2 : ℤ) / (2 : ℤ)⟩)) ↔ (0 : ℤ) ≤ 2 :=
  decode_encode_iff smallKey.obj 0 (by norm_num) (by rw [smallKey.obj_n]; decide) (by decide)

/-- `-1` with scale `1` under the key of `3` and `5`. -/
theorem decode_encode_smallKey :
    |(-1 : ℤ)| < smallKey.obj.n.tdiv 3 ∧
      smallKey.obj.encode ((-1 : ℤ) / (1 : ℤ)) (1 : ℤ) = .ok 14 ∧
      smallKey.obj.decode 0 14 false (1 : ℤ) = .ok ⟨[], 18446744073709551615⟩ := by
  have hn : smallKey.obj.n = 15 := smallKey.obj_n
  have h14 : smallKey.obj.n + -1 = 14 := by rw [hn]; rfl
  refine ⟨by rw [hn]; decide, ?_, ?_⟩
  · rw [Paillier.encode_of_neg (by norm_num) (by norm_num) (by norm_num), h14]
  · rw [← h14, Paillier.decode_encode_of_neg (by norm_num) (by rw [hn]; decide) (by norm_num)]
    norm_num

/-! ## The image of `encode` -/

/-- `m` is the residue that stands for the scalar `x`. -/
def Encodes (key : Paillier) (S : ℤ) (x : ℚ) (m : ℤ) : Prop :=
  0 ≤ m ∧ m < key.n ∧ m ≡ truncate (x * S) [ZMOD key.n]

/-- The plaintext stands for its scalar, unless the scalar is negative and truncates to zero. -/
theorem encodes_iff {key : Paillier} {S : ℤ} {x : ℚ} (hS : 1 ≤ S)
    (hx : |x| * S < key.n.tdiv 3) :
    Encodes key S x (if x < 0 then key.n + truncate (x * S) else truncate (x * S)) ↔
      ¬ (x < 0 ∧ -1 < x * S) := by
  obtain ⟨hneg, hpos, hlo, hhi⟩ := Paillier.truncate_bounds hS hx
  have hthird := tdiv_three_bounds (n := key.n) (by omega)
  by_cases h : x < 0
  · obtain ⟨hle, hzero⟩ := hneg h
    have hmod : key.n + truncate (x * S) ≡ truncate (x * S) [ZMOD key.n] := Int.add_modEq_left
    rw [if_pos h, Encodes, ← hzero]
    simp only [h, hmod, true_and, and_true]
    omega
  · have hnonneg := hpos h
    rw [if_neg h, Encodes]
    simp only [h, false_and, not_false_eq_true, iff_true]
    exact ⟨hnonneg, by omega, Int.ModEq.rfl⟩

/-- **`encode` is canonical** except on negative scalars that truncate to zero, which it encodes as
`n`. -/
theorem encode_canonical_iff (key : Paillier) {S : ℤ} (hS : 1 ≤ S) {x y : ℚ}
    (hx : |x| * S < key.n.tdiv 3) (hy : |y| * S < key.n.tdiv 3) (hx64 : |x| * S < 2 ^ 64)
    (hy64 : |y| * S < 2 ^ 64) :
    (∃ m m', key.encode x S = .ok m ∧ key.encode y S = .ok m' ∧ Encodes key S x m ∧
      Encodes key S y m' ∧ (m = m' ↔ truncate (x * S) = truncate (y * S))) ↔
      ¬ (x < 0 ∧ -1 < x * S) ∧ ¬ (y < 0 ∧ -1 < y * S) := by
  rw [Paillier.encode_eq hS hx64, Paillier.encode_eq hS hy64, ← encodes_iff hS hx,
    ← encodes_iff hS hy]
  constructor
  · rintro ⟨m, m', ⟨⟩, ⟨⟩, hm, hm', -⟩
    exact ⟨hm, hm'⟩
  · rintro ⟨hm, hm'⟩
    refine ⟨_, _, rfl, rfl, hm, hm', ?_⟩
    obtain ⟨hxneg, hxpos, hxlo, hxhi⟩ := Paillier.truncate_bounds hS hx
    obtain ⟨hyneg, hypos, hylo, hyhi⟩ := Paillier.truncate_bounds hS hy
    have hthird := tdiv_three_bounds (n := key.n) (by omega)
    have hmn := hm.2.1
    have hmn' := hm'.2.1
    by_cases h : x < 0
    · have hle := (hxneg h).1
      rw [if_pos h] at hmn ⊢
      by_cases h' : y < 0
      · rw [if_pos h']
        exact add_right_inj _
      · have hge := hypos h'
        rw [if_neg h']
        omega
    · have hge := hxpos h
      rw [if_neg h]
      by_cases h' : y < 0
      · have hle := (hyneg h').1
        rw [if_pos h'] at hmn' ⊢
        omega
      · rw [if_neg h']

theorem encode_canonical_iff_smallKey :
    (∃ m m', smallKey.obj.encode 1 (2 : ℤ) = .ok m ∧ smallKey.obj.encode (-1) (2 : ℤ) = .ok m' ∧
      Encodes smallKey.obj 2 1 m ∧ Encodes smallKey.obj 2 (-1) m' ∧
      (m = m' ↔ truncate (1 * (2 : ℤ)) = truncate (-1 * (2 : ℤ)))) ↔
      ¬ ((1 : ℚ) < 0 ∧ -1 < (1 : ℚ) * (2 : ℤ)) ∧ ¬ ((-1 : ℚ) < 0 ∧ -1 < (-1 : ℚ) * (2 : ℤ)) := by
  have hthird : smallKey.obj.n.tdiv 3 = 5 := by
    rw [smallKey.obj_n]
    rfl
  exact encode_canonical_iff smallKey.obj (by norm_num) (by rw [hthird]; norm_num)
    (by rw [hthird]; norm_num) (by norm_num) (by norm_num)

/-- `-1 / 2` with scale `1` under the key of `3` and `5`. -/
theorem encode_smallKey :
    |(-1 / 2 : ℚ)| * (1 : ℤ) < smallKey.obj.n.tdiv 3 ∧
      smallKey.obj.encode (-1 / 2) (1 : ℤ) = .ok smallKey.obj.n ∧
      smallKey.obj.encode 0 (1 : ℤ) = .ok 0 ∧
      truncate (-1 / 2 * (1 : ℤ)) = truncate (0 * (1 : ℤ)) := by
  have hthird : smallKey.obj.n.tdiv 3 = 5 := by
    rw [smallKey.obj_n]
    rfl
  have htruncate : truncate (-1 / 2 * (1 : ℤ)) = 0 :=
    (truncate_eq_zero_iff (by norm_num)).mpr (by norm_num)
  have hzero : truncate (0 * (1 : ℤ)) = 0 := by
    rw [zero_mul]
    exact truncate_intCast 0
  refine ⟨by rw [hthird]; norm_num [abs_of_neg], ?_, ?_, htruncate.trans hzero.symm⟩
  · rw [Paillier.encode_eq le_rfl (by norm_num [abs_of_neg]), if_pos (by norm_num), htruncate,
      add_zero]
  · rw [Paillier.encode_eq le_rfl (by norm_num), if_neg (by norm_num), hzero]

end HardApi
