import Mathlib.Data.BitVec
import Mathlib.Data.Nat.Bitwise

/-!
# Ranges of bits

A range of `width` bits of a word, from bit `shift` on: its mask, reading it and writing it. What is
written is not cut to the range, so `getLsbD_put` has a term for the bits above it.
-/

namespace BitRange

variable {n : ℕ} (width shift : ℕ) (word data : BitVec n)

/-- `((1 << width) - 1) << shift`. -/
def mask : BitVec n := (1#n <<< width - 1#n) <<< shift

def get : BitVec n := (word &&& mask width shift) >>> shift

def put : BitVec n := (word &&& ~~~mask width shift) ||| data <<< shift

variable {width} {shift} {word} {data} {i : ℕ}

theorem toNat_ones (h : width < n) : (1#n <<< width - 1#n).toNat = 2 ^ width - 1 := by
  have hpow : 2 ^ width < 2 ^ n := Nat.pow_lt_pow_right Nat.one_lt_two h
  have hn : 1 < 2 ^ n := Nat.one_lt_two_pow (by omega)
  have hone : (1#n <<< width).toNat = 2 ^ width := by
    simp [BitVec.toNat_shiftLeft, Nat.shiftLeft_eq, Nat.mod_eq_of_lt hn, Nat.mod_eq_of_lt hpow]
  rw [BitVec.toNat_sub_of_le]
  · rw [hone]
    simp [Nat.mod_eq_of_lt hn]
  · rw [BitVec.le_def, hone]
    simpa [Nat.mod_eq_of_lt hn] using Nat.one_le_two_pow

theorem getLsbD_mask (h : width < n) (hi : i < n) :
    (mask width shift : BitVec n).getLsbD i = decide (shift ≤ i ∧ i < shift + width) := by
  rw [mask, BitVec.getLsbD_shiftLeft, BitVec.getLsbD, toNat_ones h, Nat.testBit_two_pow_sub_one]
  by_cases hle : shift ≤ i
  · simp [hi, hle, Nat.not_lt.mpr hle, Nat.sub_lt_iff_lt_add hle,
      Nat.add_comm width]
  · simp [hle, Nat.lt_of_not_le hle]

theorem getLsbD_get (h : width < n) :
    (get width shift word).getLsbD i = (decide (i < width) && word.getLsbD (shift + i)) := by
  rw [get, BitVec.getLsbD_ushiftRight, BitVec.getLsbD_and]
  by_cases hi : shift + i < n
  · rw [getLsbD_mask h hi, Bool.and_comm]
    simp
  · rw [BitVec.getLsbD_of_ge word _ (by omega)]
    simp

/-- The range gets the data, and the bits above it what the data has there. -/
theorem getLsbD_put (h : width < n) (hi : i < n) :
    (put width shift word data).getLsbD i =
      if shift ≤ i ∧ i < shift + width then data.getLsbD (i - shift)
      else (word.getLsbD i || (decide (shift ≤ i) && data.getLsbD (i - shift))) := by
  rw [put, BitVec.getLsbD_or, BitVec.getLsbD_and, BitVec.getLsbD_not, BitVec.getLsbD_shiftLeft,
    getLsbD_mask h hi]
  by_cases hle : shift ≤ i
  · by_cases hlt : i < shift + width <;> simp [hi, hle, hlt, Nat.not_lt.mpr hle]
  · simp [hi, hle, Nat.lt_of_not_le hle]

/-- Data that fits. -/
def Fits (width : ℕ) (data : BitVec n) : Prop := ∀ i, width ≤ i → data.getLsbD i = false

theorem fits_of_lt (h : data.toNat < 2 ^ width) : Fits width data := fun _ hi =>
  Nat.testBit_lt_two_pow (h.trans_le (Nat.pow_le_pow_right Nat.two_pos hi))

theorem getLsbD_put_of_fits (h : width < n) (hi : i < n) (hdata : Fits width data) :
    (put width shift word data).getLsbD i =
      if shift ≤ i ∧ i < shift + width then data.getLsbD (i - shift) else word.getLsbD i := by
  rw [getLsbD_put h hi]
  split_ifs with hrange
  · rfl
  · by_cases hle : shift ≤ i
    · rw [hdata (i - shift) (by omega), Bool.and_false, Bool.or_false]
    · simp [hle]

theorem get_put (h : width < n) (hfit : shift + width ≤ n) (hdata : Fits width data) :
    get width shift (put width shift word data) = data := by
  apply BitVec.eq_of_getLsbD_eq
  intro i hi
  rw [getLsbD_get h]
  by_cases hlt : i < width
  · rw [getLsbD_put h (by omega), if_pos (by omega), Nat.add_sub_cancel_left]
    simp [hlt]
  · rw [hdata i (by omega)]
    simp [hlt]

end BitRange
