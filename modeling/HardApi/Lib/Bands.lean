import Mathlib.Data.Int.ModEq
import Mathlib.Tactic.Ring

/-!
# Signed numbers as residues

Residues modulo `n` stand for signed numbers in two bands: those below `pos` for themselves, those
above `neg` for themselves minus `n`, and those in between for nothing. `read` is partial, so an
addition that leaves the bands is seen. When the bands are narrow enough (`Bands.Narrow`) the
reading of a sum is never wrong, only absent (`Bands.read_add`), and it is absent only for two
numbers of the same sign (`Bands.read_add_isSome`).
-/

structure Bands where
  n : ℤ
  pos : ℤ
  neg : ℤ

namespace Bands

variable {bands : Bands} {a b v x y : ℤ}

/-- What a residue stands for. -/
def read (bands : Bands) (a : ℤ) : Option ℤ :=
  if bands.neg < a then some (a - bands.n) else if a < bands.pos then some a else none

/-- Twice a band fits beside the other one. -/
structure Narrow (bands : Bands) : Prop where
  nonneg : 0 ≤ bands.pos
  pos_le : bands.pos ≤ bands.neg + 1
  neg_lt : bands.neg < bands.n
  two_pos_le : 2 * bands.pos ≤ bands.neg + 2
  le_two_neg : bands.n + bands.pos ≤ 2 * bands.neg + 2

theorem read_of_neg (h : bands.neg < a) : bands.read a = some (a - bands.n) := if_pos h

theorem read_of_pos (hneg : a ≤ bands.neg) (h : a < bands.pos) : bands.read a = some a := by
  rw [read, if_neg (not_lt.mpr hneg), if_pos h]

theorem read_of_between (hneg : a ≤ bands.neg) (hpos : bands.pos ≤ a) : bands.read a = none := by
  rw [read, if_neg (not_lt.mpr hneg), if_neg (not_lt.mpr hpos)]

/-- The two bands of a residue that stands for a number. -/
theorem read_eq_some_iff (h : bands.Narrow) :
    bands.read a = some v ↔
      (a < bands.pos ∧ v = a) ∨ (bands.neg < a ∧ v = a - bands.n) := by
  have hle := h.pos_le
  by_cases hneg : bands.neg < a
  · rw [read_of_neg hneg, Option.some.injEq]
    omega
  · by_cases hpos : a < bands.pos
    · rw [read_of_pos (not_lt.mp hneg) hpos, Option.some.injEq]
      omega
    · rw [read_of_between (not_lt.mp hneg) (not_lt.mp hpos)]
      simp [hneg, hpos]

theorem emod_of_sum (ha : 0 ≤ a) (hb : 0 ≤ b) (han : a < bands.n) (hbn : b < bands.n) :
    (a + b) % bands.n = if a + b < bands.n then a + b else a + b - bands.n := by
  by_cases hlt : a + b < bands.n
  · rw [if_pos hlt, Int.emod_eq_of_lt (by omega) hlt]
  · rw [if_neg hlt, ← Int.sub_emod_right, Int.emod_eq_of_lt (by omega) (by omega)]

/-- **A sum is read right or not at all.** -/
theorem read_add (h : bands.Narrow) (ha : 0 ≤ a) (hb : 0 ≤ b) (han : a < bands.n)
    (hbn : b < bands.n) (hx : bands.read a = some x) (hy : bands.read b = some y)
    (hv : bands.read ((a + b) % bands.n) = some v) : v = x + y := by
  have hnonneg := h.nonneg
  have hlt := h.neg_lt
  have hpos := h.two_pos_le
  have hneg := h.le_two_neg
  rw [read_eq_some_iff h] at hx hy hv
  rw [emod_of_sum ha hb han hbn] at hv
  split_ifs at hv <;> omega

/-- A sum of numbers of opposite signs is read. -/
theorem read_add_isSome (h : bands.Narrow) (ha : 0 ≤ a) (hb : 0 ≤ b) (han : a < bands.n)
    (hbn : b < bands.n) (hx : bands.read a = some x) (hy : bands.read b = some y)
    (hsign : x < 0 ↔ 0 ≤ y) : ∃ v, bands.read ((a + b) % bands.n) = some v := by
  rw [read_eq_some_iff h] at hx hy
  simp only [read_eq_some_iff h, emod_of_sum ha hb han hbn]
  by_cases hlt : a + b < bands.n
  · rw [if_pos hlt]
    exact ⟨a + b - bands.n, by omega⟩
  · rw [if_neg hlt]
    exact ⟨a + b - bands.n, by omega⟩

end Bands
