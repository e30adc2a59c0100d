import QuantumKernels.Numeric.Scalar
import Mathlib

/-!
# Exact numbers

Rationals in the place of floating-point reals. What is computed with them is the arithmetic of the
field, so that estimates can be reasoned about as formulas.
-/
namespace QuantumKernels

instance : Scalar ℚ where
  ofNat n := n
  nearest x := ⌊x + 1 / 2⌋₊
  neutral := 0
  decidableLT := inferInstance
  decidableLE := inferInstance

namespace Scalar

@[simp]
theorem ofNat_rat (n : ℕ) : (ofNat n : ℚ) = n := rfl

@[simp]
theorem zero_rat : (zero : ℚ) = 0 := Nat.cast_zero

@[simp]
theorem one_rat : (one : ℚ) = 1 := Nat.cast_one

@[simp]
theorem abs_rat (x : ℚ) : abs x = |x| := by
  unfold abs
  rw [zero_rat]
  split
  · rename_i hneg
    exact (abs_of_neg hneg).symm
  · rename_i hneg
    exact (abs_of_nonneg (not_lt.mp hneg)).symm

@[simp]
theorem sum_rat (l : List ℚ) : sum l = l.sum := by
  rw [List.sum_eq_foldl]
  rfl

theorem nearest_rat (x : ℚ) : nearest x = ⌊x + 1 / 2⌋₊ := rfl

/-- The nearest natural number is at most a half away. -/
theorem abs_nearest_sub_le {x : ℚ} (hx : 0 ≤ x) : |(nearest x : ℚ) - x| ≤ 1 / 2 := by
  have hlow : (⌊x + 1 / 2⌋₊ : ℚ) ≤ x + 1 / 2 := Nat.floor_le (by linarith)
  have hhigh : x + 1 / 2 < ⌊x + 1 / 2⌋₊ + 1 := Nat.lt_floor_add_one _
  rw [nearest_rat, abs_le]
  constructor
  · linarith
  · linarith

/-- The rational that a positive double stands for; infinity is the power of two past the greatest double. -/
def exactly (x : Float) : ℚ :=
  (Decimal.Magnitude.ofBits x.toBits).significand * 2 ^ (Decimal.Magnitude.ofBits x.toBits).exponent

/-- A double is rounded as its rational is, but for the bound of a word. -/
theorem nearest_float {x : Float} (hx : 0 < x) : nearest x = min (2 ^ 64 - 1) (nearest (exactly x)) := by
  change nearestWord x = _
  simp only [nearestWord, if_pos hx, nearest_rat, exactly]
  generalize Decimal.Magnitude.ofBits x.toBits = m
  have hscale : (2 : ℚ) ^ m.exponent = 2 ^ m.exponent.toNat / 2 ^ (-m.exponent).toNat := by
    rw [← zpow_natCast, ← zpow_natCast, ← zpow_sub₀ (by norm_num)]
    congr 1
    omega
  have hhalf : (m.significand * 2 ^ m.exponent + 1 / 2 : ℚ) =
      ((2 * m.significand * 2 ^ m.exponent.toNat + 2 ^ (-m.exponent).toNat : ℕ) : ℚ) /
        (2 * 2 ^ (-m.exponent).toNat : ℕ) := by
    rw [hscale]
    push_cast
    field_simp
  rw [hhalf, Nat.floor_div_eq_div]

end Scalar

end QuantumKernels
