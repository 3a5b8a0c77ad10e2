import Mathlib.Data.BitVec
import Mathlib.Data.List.TakeWhile

/-!
# Bytes

Integers in the memory of a little-endian host and in big-endian files, and the byte swaps between
the two; strings that end at the first zero byte.
-/

namespace Bytes

abbrev Byte := BitVec 8

/-! ## Integers -/

variable (b₀ b₁ b₂ b₃ : Byte)

/-- Two bytes of memory as a `short` of a little-endian host. -/
def loadShort : BitVec 16 := b₁ ++ b₀

/-- Four bytes of memory as an `int`. -/
def loadInt : BitVec 32 := b₃ ++ b₂ ++ b₁ ++ b₀

def storeInt (x : BitVec 32) : List Byte :=
  [x.extractLsb' 0 8, x.extractLsb' 8 8, x.extractLsb' 16 8, x.extractLsb' 24 8]

def bswap16 (x : BitVec 16) : BitVec 16 := x.extractLsb' 0 8 ++ x.extractLsb' 8 8

def bswap32 (x : BitVec 32) : BitVec 32 :=
  x.extractLsb' 0 8 ++ x.extractLsb' 8 8 ++ x.extractLsb' 16 8 ++ x.extractLsb' 24 8

/-- A `short` in a big-endian file. -/
def bigShort (x : BitVec 16) : List Byte := [x.extractLsb' 8 8, x.extractLsb' 0 8]

/-- An `int` in a big-endian file. -/
def bigInt (x : BitVec 32) : List Byte :=
  [x.extractLsb' 24 8, x.extractLsb' 16 8, x.extractLsb' 8 8, x.extractLsb' 0 8]

theorem byte_zero {n : ℕ} (x : BitVec n) (b : Byte) : (x ++ b).extractLsb' 0 8 = b :=
  BitVec.extractLsb'_append_eq_right

theorem byte_succ (n k : ℕ) (x : BitVec n) (b : Byte) :
    (x ++ b).extractLsb' (k + 8) 8 = x.extractLsb' k 8 := by
  rw [BitVec.extractLsb'_append_eq_of_le (by omega), Nat.add_sub_cancel]

theorem byte_self (b : Byte) : b.extractLsb' 0 8 = b := by
  simp

/-- Reading a big-endian `short`. -/
theorem bswap16_loadShort : bswap16 (loadShort b₀ b₁) = b₀ ++ b₁ := by
  simp only [bswap16, loadShort, byte_zero, byte_succ 8 0, byte_self]

theorem bigShort_append : bigShort (b₀ ++ b₁ : BitVec 16) = [b₀, b₁] := by
  simp only [bigShort, byte_zero, byte_succ 8 0, byte_self]

theorem append_of_short (x : BitVec 16) :
    (x.extractLsb' 8 8 ++ x.extractLsb' 0 8 : BitVec 16) = x := by
  rw [BitVec.extractLsb'_append_extractLsb'_eq_extractLsb' (by rfl)]
  simp

/-- Reading a big-endian `int`. -/
theorem bswap32_loadInt : bswap32 (loadInt b₀ b₁ b₂ b₃) = b₀ ++ b₁ ++ b₂ ++ b₃ := by
  simp only [bswap32, loadInt, byte_zero, byte_succ 24 0, byte_succ 24 8, byte_succ 24 16,
    byte_succ 16 0, byte_succ 16 8, byte_succ 8 0, byte_self]

theorem bigInt_append : bigInt (b₀ ++ b₁ ++ b₂ ++ b₃ : BitVec 32) = [b₀, b₁, b₂, b₃] := by
  simp only [bigInt, byte_zero, byte_succ 24 0, byte_succ 24 8, byte_succ 24 16,
    byte_succ 16 0, byte_succ 16 8, byte_succ 8 0, byte_self]

theorem append_of_int (x : BitVec 32) :
    (x.extractLsb' 24 8 ++ x.extractLsb' 16 8 ++ x.extractLsb' 8 8 ++ x.extractLsb' 0 8 :
      BitVec 32) = x := by
  rw [BitVec.extractLsb'_append_extractLsb'_eq_extractLsb' (by rfl),
    BitVec.extractLsb'_append_extractLsb'_eq_extractLsb' (by rfl),
    BitVec.extractLsb'_append_extractLsb'_eq_extractLsb' (by rfl)]
  simp

/-- Every whole word of a buffer from one byte order to the other, the rest as it is. -/
def swapWords : List Byte → List Byte
  | b₀ :: b₁ :: b₂ :: b₃ :: rest => storeInt (bswap32 (loadInt b₀ b₁ b₂ b₃)) ++ swapWords rest
  | rest => rest

@[simp] theorem length_swapWords (data : List Byte) : (swapWords data).length = data.length := by
  fun_induction swapWords data with
  | case1 b₀ b₁ b₂ b₃ rest ih => simp [storeInt, ih]
  | case2 rest => rfl

/-! ## Strings -/

/-- The string at the start of a buffer. -/
def cString (buffer : List Byte) : List Byte := buffer.takeWhile (· ≠ 0)

variable {α : Type*} [DecidableEq α] {text pre post : List α} {c : α} {i : ℕ}

/-- The place of the last `c`. -/
def strrchr : List α → α → Option ℕ
  | [], _ => none
  | b :: text, c =>
    match strrchr text c with
    | some i => some (i + 1)
    | none => if b = c then some 0 else none

theorem strrchr_eq_none_iff : strrchr text c = none ↔ c ∉ text := by
  induction text with
  | nil => simp [strrchr]
  | cons b text ih =>
    unfold strrchr
    cases h : strrchr text c with
    | some i =>
      have hmem : c ∈ text := by
        by_contra hnot
        rw [ih.mpr hnot] at h
        cases h
      simp [hmem]
    | none =>
      have hnot := ih.mp h
      by_cases hb : b = c
      · simp [hb]
      · simp [hb, hnot, Ne.symm hb]

theorem strrchr_append (h : c ∉ post) : strrchr (pre ++ c :: post) c = some pre.length := by
  induction pre with
  | nil => simp [strrchr, strrchr_eq_none_iff.mpr h]
  | cons b pre ih => simp [strrchr, ih]

theorem strrchr_eq_some_iff :
    strrchr text c = some i ↔ ∃ pre post, text = pre ++ c :: post ∧ pre.length = i ∧ c ∉ post := by
  constructor
  · intro h
    induction text generalizing i with
    | nil => cases h
    | cons b text ih =>
      unfold strrchr at h
      cases hrest : strrchr text c with
      | some j =>
        rw [hrest] at h
        obtain rfl := Option.some.inj h
        obtain ⟨pre, post, rfl, rfl, hpost⟩ := ih hrest
        exact ⟨b :: pre, post, rfl, rfl, hpost⟩
      | none =>
        rw [hrest] at h
        by_cases hb : b = c
        · obtain rfl : 0 = i := by simpa [hb] using h
          exact ⟨[], text, by rw [hb]; rfl, rfl, strrchr_eq_none_iff.mp hrest⟩
        · simp [hb] at h
  · rintro ⟨pre, post, rfl, rfl, hpost⟩
    exact strrchr_append hpost

end Bytes
