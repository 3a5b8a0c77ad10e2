import Mathlib.Data.Nat.Digits.Lemmas
import Mathlib.Algebra.BigOperators.Group.Finset.Basic
import Mathlib.Data.BitVec
import Mathlib.Tactic.Ring

/-!
# Numbers in arrays of words

An array of `w`-bit words is a function from indices. `storeAt dst off x` writes the significant
words of `x`, least significant first, from index `off` on, and nothing else (none at all for
zero); `value f W` reads `W` words as a little-endian number. Reading back what was stored needs
the words above the stored ones to be zero, and that is the only thing it needs
(`value_storeAt_eq_iff`).
-/

namespace Words

variable {w : ℕ}

/-- How many words `x` has. -/
def size (w x : ℕ) : ℕ := (Nat.digits (2 ^ w) x).length

/-- Word `i` of `x`. -/
def word (w x i : ℕ) : BitVec w := BitVec.ofNat w (x / 2 ^ (w * i))

def storeAt (dst : ℕ → BitVec w) (off x : ℕ) : ℕ → BitVec w := fun i =>
  if off ≤ i ∧ i < off + size w x then word w x (i - off) else dst i

/-- The number in the first `W` words. -/
def value (f : ℕ → BitVec w) (W : ℕ) : ℕ := ∑ i ∈ Finset.range W, (f i).toNat * 2 ^ (w * i)

/-! ## Sizes -/

@[simp] theorem size_zero (w : ℕ) : size w 0 = 0 := by
  simp [size]

theorem size_le_iff (hw : 0 < w) {x W : ℕ} : size w x ≤ W ↔ x < 2 ^ (w * W) := by
  rw [size, Nat.digits_length_le_iff (Nat.one_lt_two_pow hw.ne'), ← pow_mul]

theorem size_eq_iff (hw : 0 < w) {x W : ℕ} (hW : 0 < W) :
    size w x = W ↔ 2 ^ (w * (W - 1)) ≤ x ∧ x < 2 ^ (w * W) := by
  rw [← not_lt, ← size_le_iff hw, ← size_le_iff hw]
  omega

theorem word_of_size_le (hw : 0 < w) {x i : ℕ} (h : size w x ≤ i) : word w x i = 0 := by
  rw [word, Nat.div_eq_of_lt ((size_le_iff hw).mp h)]
  rfl

/-! ## Values -/

@[simp] theorem value_zero (f : ℕ → BitVec w) : value f 0 = 0 := rfl

theorem value_succ (f : ℕ → BitVec w) (W : ℕ) :
    value f (W + 1) = value f W + (f W).toNat * 2 ^ (w * W) := by
  simp [value, Finset.sum_range_succ]

theorem value_congr {f g : ℕ → BitVec w} {W : ℕ} (h : ∀ i < W, f i = g i) :
    value f W = value g W := by
  unfold value
  apply Finset.sum_congr rfl
  intro i hi
  rw [h i (Finset.mem_range.mp hi)]

theorem value_const_zero (W : ℕ) : value (fun _ => (0 : BitVec w)) W = 0 := by
  simp [value]

theorem value_lt (f : ℕ → BitVec w) (W : ℕ) : value f W < 2 ^ (w * W) := by
  induction W with
  | zero => simp
  | succ W ih =>
    have hword : (f W).toNat + 1 ≤ 2 ^ w := (f W).isLt
    calc value f (W + 1) = value f W + (f W).toNat * 2 ^ (w * W) := value_succ f W
      _ < 2 ^ (w * W) + (f W).toNat * 2 ^ (w * W) := by omega
      _ = ((f W).toNat + 1) * 2 ^ (w * W) := by ring
      _ ≤ 2 ^ w * 2 ^ (w * W) := Nat.mul_le_mul_right _ hword
      _ = 2 ^ (w * (W + 1)) := by ring

/-- The words of a number are determined by it. -/
theorem value_eq_value_iff {f g : ℕ → BitVec w} {W : ℕ} :
    value f W = value g W ↔ ∀ i < W, f i = g i := by
  refine ⟨fun h => ?_, value_congr⟩
  induction W with
  | zero => simp
  | succ W ih =>
    rw [value_succ, value_succ] at h
    have hf := value_lt f W
    have hg := value_lt g W
    have htop : (f W).toNat = (g W).toNat := by
      have hdiv := congrArg (· / 2 ^ (w * W)) h
      simp only [Nat.add_mul_div_right _ _ (Nat.two_pow_pos (w * W)), Nat.div_eq_of_lt hf,
        Nat.div_eq_of_lt hg, Nat.zero_add] at hdiv
      exact hdiv
    rw [htop, Nat.add_right_cancel_iff] at h
    intro i hi
    rcases Nat.lt_succ_iff_lt_or_eq.mp hi with hi | rfl
    · exact ih h i hi
    · exact BitVec.eq_of_toNat_eq htop

theorem value_word (x W : ℕ) : value (word w x) W = x % 2 ^ (w * W) := by
  induction W with
  | zero => simp [Nat.mod_one]
  | succ W ih =>
    rw [value_succ, ih, word, BitVec.toNat_ofNat, Nat.mul_succ, pow_add, Nat.mod_mul]
    ring

/-! ## Reading back a store -/

theorem storeAt_outside (dst : ℕ → BitVec w) {off x i : ℕ} (h : i < off ∨ off + size w x ≤ i) :
    storeAt dst off x i = dst i := by
  rw [storeAt, if_neg (by omega)]

/-- Zero has no words. -/
@[simp] theorem storeAt_zero (dst : ℕ → BitVec w) (off : ℕ) : storeAt dst off 0 = dst := by
  funext i
  exact storeAt_outside dst (by rw [size_zero]; omega)

theorem storeAt_inside (dst : ℕ → BitVec w) {off x i : ℕ} (h : i < size w x) :
    storeAt dst off x (off + i) = word w x i := by
  rw [storeAt, if_pos (by omega), Nat.add_sub_cancel_left]

/-- **Reading back.** `W` words from `off` on hold `x` exactly when the words that the store did
not reach are zero. -/
theorem value_storeAt_eq_iff (hw : 0 < w) (dst : ℕ → BitVec w) {off x W : ℕ}
    (hx : x < 2 ^ (w * W)) :
    value (fun i => storeAt dst off x (off + i)) W = x ↔
      ∀ i, size w x ≤ i → i < W → dst (off + i) = 0 := by
  have hval : value (word w x) W = x := by rw [value_word, Nat.mod_eq_of_lt hx]
  have hiff : value (fun i => storeAt dst off x (off + i)) W = x ↔
      ∀ i < W, storeAt dst off x (off + i) = word w x i := by
    conv_lhs => rhs; rw [← hval]
    exact value_eq_value_iff
  rw [hiff]
  constructor
  · intro h i hi hiW
    have hi' := h i hiW
    rwa [storeAt_outside dst (Or.inr (by omega)), word_of_size_le hw hi] at hi'
  · intro h i hiW
    by_cases hi : i < size w x
    · exact storeAt_inside dst hi
    · rw [storeAt_outside dst (Or.inr (by omega)), h i (by omega) hiW,
        word_of_size_le hw (by omega)]

/-- A number stored in exactly `W` words reads back. -/
theorem value_storeAt_size (hw : 0 < w) (dst : ℕ → BitVec w) (off x : ℕ) :
    value (fun i => storeAt dst off x (off + i)) (size w x) = x :=
  (value_storeAt_eq_iff hw dst ((size_le_iff hw).mp le_rfl)).mpr fun i h1 h2 => by omega

end Words
