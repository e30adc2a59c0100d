import Mathlib
import QuantumKernels.Decimal.Shortest

/-!
# Rounding to nearest

A mantissa with its residual bits tells where a rational lies between two integers as far as rounding
needs it. Shifting keeps that, so that a rational is rounded once, at the exponent of its format: to
the magnitude in whose span it lies.
-/
namespace QuantumKernels

namespace Binary64

open Float.Model Float.Model.UnpackedFloat

/-- The rational is the mantissa and what the residual bits say: nothing, less than a half, a half, or
more than a half. -/
def Represents (em : ExtendedMantissa) (y : ℚ) : Prop :=
  match em.roundBit, em.stickyBit with
  | false, false => y = em.mantissa
  | false, true => em.mantissa < y ∧ y < em.mantissa + 1 / 2
  | true, false => y = em.mantissa + 1 / 2
  | true, true => em.mantissa + 1 / 2 < y ∧ y < em.mantissa + 1

theorem Represents.bounds {em : ExtendedMantissa} {y : ℚ} (h : Represents em y) :
    em.mantissa ≤ y ∧ y < em.mantissa + 1 := by
  obtain ⟨m, round, sticky⟩ := em
  cases round <;> cases sticky <;> simp only [Represents] at h ⊢
  · exact ⟨h.ge, by linarith⟩
  · exact ⟨h.1.le, by linarith⟩
  · exact ⟨by linarith, by linarith⟩
  · exact ⟨by linarith, h.2⟩

theorem Represents.shiftRightOne {em : ExtendedMantissa} {y : ℚ} (h : Represents em y) :
    Represents em.shiftRightOne (y / 2) := by
  obtain ⟨m, round, sticky⟩ := em
  have hsplit : (m : ℚ) = 2 * (m / 2 : ℕ) + (m % 2 : ℕ) := by
    exact_mod_cast (Nat.div_add_mod m 2).symm
  rcases Nat.mod_two_eq_zero_or_one m with hbit | hbit
  · rw [hbit, Nat.cast_zero, add_zero] at hsplit
    cases round <;> cases sticky <;>
      simp only [Represents, ExtendedMantissa.shiftRightOne, hbit] at h ⊢ <;>
      simp <;> first | constructor <;> linarith | linarith
  · rw [hbit, Nat.cast_one] at hsplit
    cases round <;> cases sticky <;>
      simp only [Represents, ExtendedMantissa.shiftRightOne, hbit] at h ⊢ <;>
      simp <;> first | constructor <;> linarith | linarith

theorem Represents.shiftRight {em : ExtendedMantissa} {y : ℚ} (h : Represents em y) (k : ℕ) :
    Represents (em >>> k) (y / 2 ^ k) := by
  change Represents (k.repeat ExtendedMantissa.shiftRightOne em) (y / 2 ^ k)
  induction k with
  | zero => simpa [Nat.repeat] using h
  | succ k ih =>
    have hpow : y / 2 ^ (k + 1) = y / 2 ^ k / 2 := by rw [pow_succ, div_div]
    rw [Nat.repeat, hpow]
    exact ih.shiftRightOne

/-- The integer is nearest to the rational, and even if another one is as near. -/
def Nearest (y : ℚ) (n : ℕ) : Prop :=
  n - 1 / 2 ≤ y ∧ y ≤ n + 1 / 2 ∧ (n % 2 = 1 → n - 1 / 2 < y ∧ y < n + 1 / 2)

theorem Represents.rounded {em : ExtendedMantissa} {y : ℚ} (h : Represents em y) {n : ℕ}
    (hn : Nearest y n) : em.roundedMantissa = n := by
  obtain ⟨hlow, hhigh, hodd⟩ := hn
  obtain ⟨m, round, sticky⟩ := em
  have hle {a b : ℕ} (hab : (a : ℚ) < b + 1) : a ≤ b := Nat.lt_succ_iff.mp (by exact_mod_cast hab)
  cases round <;> cases sticky <;>
    simp only [Represents, ExtendedMantissa.roundedMantissa, ExtendedMantissa.accuracy,
      Accuracy.roundToNearestEven] at h ⊢
  · exact le_antisymm (hle (by linarith)) (hle (by linarith))
  · exact le_antisymm (hle (by linarith)) (hle (by linarith))
  · -- halfway between two integers, of which `n` is the even one
    have hmn : m ≤ n := hle (by linarith)
    have hnm : n ≤ m + 1 := hle (by push_cast; linarith)
    have heven : n % 2 = 0 := by
      by_contra hne
      obtain ⟨hl, hr⟩ := hodd (by omega)
      have hsame : n ≤ m := hle (by linarith)
      obtain rfl : n = m := le_antisymm hsame hmn
      linarith
    omega
  · exact le_antisymm (hle (by push_cast; linarith)) (hle (by push_cast; linarith))

theorem two_zpow_le {i j : ℤ} (h : i ≤ j) : (2 : ℚ) ^ i ≤ 2 ^ j := zpow_le_zpow_right₀ (by norm_num) h

theorem zpow_eq_pow_toNat (b : ℚ) {e : ℤ} (h : 0 ≤ e) : b ^ e = b ^ e.toNat := by
  rw [← zpow_natCast, Int.toNat_of_nonneg h]

/-- The exponent at which a mantissa has 53 bits, or the least one. -/
theorem targetExponent_eq (m : ℕ) (e : ℤ) :
    Format.binary64.targetExponent (totalExponent m e) = max (m.log2 + e - 52) (-1074) := by
  simp only [Format.targetExponent, totalExponent, Format.mantissaBits, Format.minExponent]
  norm_num
  omega

/-- The target exponent follows from the rational that is rounded. -/
theorem bounds_of_targetExponent {m : ℕ} {e t : ℤ} {q : ℚ}
    (ht : Format.binary64.targetExponent (totalExponent m e) = t) (hle : e ≤ t)
    (hlow : m ≤ q / 2 ^ e) (hhigh : q / 2 ^ e < m + 1) :
    q < 2 ^ (t + 53) ∧ (t = -1074 ∨ 2 ^ (t + 52) ≤ q) := by
  have hpow : (0 : ℚ) < 2 ^ e := by positivity
  rw [le_div_iff₀ hpow] at hlow
  rw [div_lt_iff₀ hpow] at hhigh
  rw [targetExponent_eq] at ht
  rcases Nat.eq_zero_or_pos m with rfl | hm
  · have hmin : t = -1074 := by
      simp only [Nat.log2_zero] at ht
      omega
    refine ⟨?_, .inl hmin⟩
    calc q < (0 + 1) * 2 ^ e := by simpa using hhigh
      _ = 2 ^ e := by ring
      _ ≤ 2 ^ (t + 53) := two_zpow_le (by omega)
  · have hlog : (2 : ℚ) ^ (m.log2 : ℤ) ≤ m := by
      rw [zpow_natCast]
      exact_mod_cast Nat.log2_self_le hm.ne'
    have hlog' : (m : ℚ) + 1 ≤ 2 ^ (m.log2 + 1 : ℤ) := by
      have hlt : m + 1 ≤ 2 ^ (m.log2 + 1) := Nat.lt_log2_self
      exact_mod_cast hlt
    constructor
    · calc q < (m + 1) * 2 ^ e := hhigh
        _ ≤ 2 ^ (m.log2 + 1 : ℤ) * 2 ^ e := by gcongr
        _ = 2 ^ (m.log2 + 1 + e : ℤ) := (zpow_add₀ (by norm_num) _ _).symm
        _ ≤ 2 ^ (t + 53) := two_zpow_le (by omega)
    · rcases eq_or_ne t (-1074) with hmin | hmin
      · exact .inl hmin
      · right
        have hsum : t + 52 = m.log2 + e := by omega
        rw [hsum, zpow_add₀ (by norm_num)]
        exact le_trans (by gcongr) hlow

/-- A rational is represented at the target exponent if it is at a smaller one. -/
theorem represents_shiftToTargetExponent {m : ℕ} {e t : ℤ} {acc : Accuracy} {q : ℚ}
    (h : Represents (.ofMantissaAndAccuracy m acc) (q / 2 ^ e))
    (ht : Format.binary64.targetExponent (totalExponent m e) = t) (hle : e ≤ t) :
    ∃ em, shiftToTargetExponent Format.binary64 m e acc = (em, t) ∧ Represents em (q / 2 ^ t) := by
  have hsum : e + ((t - e).toNat : ℤ) = t := by omega
  have hquotient : q / 2 ^ e / 2 ^ (t - e).toNat = q / 2 ^ t := by
    rw [div_div, ← zpow_natCast, ← zpow_add₀ (by norm_num), hsum]
  refine ⟨_, ?_, hquotient ▸ h.shiftRight (t - e).toNat⟩
  rw [shiftToTargetExponent, shiftToExponent, ht, hsum]

/-- A mantissa that is not too long stays as it is. -/
theorem shiftToTargetExponent_self {m : ℕ} {e : ℤ}
    (h : Format.binary64.targetExponent (totalExponent m e) ≤ e) :
    shiftToTargetExponent Format.binary64 m e .exact = (⟨m, false, false⟩, e) := by
  have hnone : (Format.binary64.targetExponent (totalExponent m e) - e).toNat = 0 := by omega
  rw [shiftToTargetExponent, shiftToExponent, hnone, Nat.cast_zero, add_zero]
  rfl

/-- A mantissa that rounding has made one bit too long loses it. -/
theorem shiftToTargetExponent_carry {e : ℤ} (h : -1074 < e) :
    shiftToTargetExponent Format.binary64 (2 ^ 53) (e - 1) .exact = (⟨2 ^ 52, false, false⟩, e) := by
  have htarget : Format.binary64.targetExponent (totalExponent (2 ^ 53) (e - 1)) = e := by
    rw [targetExponent_eq, Nat.log2_two_pow]
    omega
  have hone : (e - (e - 1)).toNat = 1 := by omega
  have hsum : e - 1 + ((1 : ℕ) : ℤ) = e := by omega
  rw [shiftToTargetExponent, shiftToExponent, htarget, hone, hsum]
  rfl

end Binary64

namespace Decimal.Magnitude

open Float.Model Float.Model.UnpackedFloat Binary64

/-- A magnitude of the format: of 53 bits, unless its exponent is the least one. The magnitudes below
a power of two are half as far apart as those above it. -/
structure Canonical (m : Magnitude) : Prop where
  pos : 0 < m.significand
  lt : m.significand < 2 ^ 53
  low : -1074 ≤ m.exponent
  full : m.exponent = -1074 ∨ 2 ^ 52 ≤ m.significand
  narrow : m.narrow = true ↔ m.significand = 2 ^ 52 ∧ -1074 < m.exponent

/-- Half the way to the next smaller magnitude, in units of the last bit. -/
def gap (m : Magnitude) : ℚ := if m.narrow then 1 / 4 else 1 / 2

/-- The rational lies at most halfway to the neighbours of the magnitude, and less if its significand
is odd. -/
structure Covers (m : Magnitude) (q : ℚ) : Prop where
  low : (m.significand - m.gap) * 2 ^ m.exponent ≤ q
  high : q ≤ (m.significand + 1 / 2) * 2 ^ m.exponent
  odd : m.significand % 2 = 1 →
    (m.significand - m.gap) * 2 ^ m.exponent < q ∧ q < (m.significand + 1 / 2) * 2 ^ m.exponent

theorem gap_bounds (m : Magnitude) : 1 / 4 ≤ m.gap ∧ m.gap ≤ 1 / 2 := by
  rw [gap]
  split <;> norm_num

variable {m : Magnitude} {q : ℚ}

/-- The target exponent is that of the magnitude, or the one below it if the rational is smaller than
the power of two that the magnitude is. -/
theorem Covers.exponent (h : m.Covers q) (hm : m.Canonical) {t : ℤ} (hlow : -1074 ≤ t)
    (hlt : q < 2 ^ (t + 53)) (hge : t = -1074 ∨ 2 ^ (t + 52) ≤ q) :
    t = m.exponent ∨ t = m.exponent - 1 ∧ m.narrow = true ∧ q < 2 ^ (m.exponent + 52) := by
  have hunit : (0 : ℚ) < 2 ^ m.exponent := by positivity
  have hpow (k : ℤ) : (2 : ℚ) ^ (m.exponent + k) = 2 ^ k * 2 ^ m.exponent := by
    rw [zpow_add₀ (by norm_num), mul_comm]
  rcases lt_trichotomy t m.exponent with hsmall | heq | hlarge
  · right
    have hfull : 2 ^ 52 ≤ m.significand := hm.full.resolve_left (by have := hm.low; omega)
    have hq : q < 2 ^ (m.exponent + 52) := hlt.trans_le (two_zpow_le (by omega))
    have hnarrow : m.narrow = true := by
      refine hm.narrow.mpr ⟨le_antisymm ?_ hfull, by omega⟩
      have hbelow := h.low.trans_lt hq
      rw [hpow, mul_lt_mul_iff_left₀ hunit] at hbelow
      have hgap := m.gap_bounds.2
      norm_num at hbelow
      have hcast : (m.significand : ℚ) < 2 ^ 52 + 1 := by linarith
      exact Nat.lt_succ_iff.mp (by exact_mod_cast hcast)
    refine ⟨?_, hnarrow, hq⟩
    by_contra hne
    have hfar := (h.low.trans_lt hlt).trans_le (two_zpow_le (show t + 53 ≤ m.exponent + 51 by omega))
    rw [hpow, mul_lt_mul_iff_left₀ hunit] at hfar
    have hgap := m.gap_bounds.2
    have hcast : (2 : ℚ) ^ 52 ≤ m.significand := by exact_mod_cast hfull
    norm_num at hfar
    linarith
  · exact .inl heq
  · exfalso
    have hbig : 2 ^ (t + 52) ≤ q := hge.resolve_left (by have := hm.low; omega)
    have hfar := ((two_zpow_le (show m.exponent + 53 ≤ t + 52 by omega)).trans hbig).trans h.high
    rw [hpow, mul_le_mul_iff_left₀ hunit] at hfar
    have hcast : (m.significand : ℚ) + 1 ≤ 2 ^ 53 := by exact_mod_cast hm.lt
    norm_num at hfar
    linarith

theorem Covers.nearest (h : m.Covers q) : Nearest (q / 2 ^ m.exponent) m.significand := by
  have hunit : (0 : ℚ) < 2 ^ m.exponent := by positivity
  have hgap := m.gap_bounds.2
  have hlow := (le_div_iff₀ hunit).mpr h.low
  have hhigh := (div_le_iff₀ hunit).mpr h.high
  refine ⟨by linarith, hhigh, fun hodd => ?_⟩
  obtain ⟨hl, hr⟩ := h.odd hodd
  have hl := (lt_div_iff₀ hunit).mpr hl
  exact ⟨by linarith, (div_lt_iff₀ hunit).mpr hr⟩

/-- Just below a power of two the rational is rounded to twice the significand. -/
theorem Covers.nearest_below (h : m.Covers q) (hnarrow : m.narrow = true) (hsig : m.significand = 2 ^ 52)
    (hq : q < 2 ^ (m.exponent + 52)) : Nearest (q / 2 ^ (m.exponent - 1)) (2 ^ 53) := by
  have hunit : (0 : ℚ) < 2 ^ m.exponent := by positivity
  have hhalf : q / 2 ^ (m.exponent - 1) = 2 * (q / 2 ^ m.exponent) := by
    rw [zpow_sub_one₀ (by norm_num)]
    field_simp
  have hlow := (le_div_iff₀ hunit).mpr h.low
  rw [zpow_add₀ (by norm_num), mul_comm, ← div_lt_iff₀ hunit] at hq
  rw [gap, if_pos hnarrow, hsig] at hlow
  norm_num at hlow hq
  rw [hhalf, Nearest]
  refine ⟨by norm_num; linarith, by norm_num; linarith, fun hodd => ?_⟩
  norm_num at hodd

theorem Canonical.targetExponent_le (hm : m.Canonical) :
    Format.binary64.targetExponent (totalExponent m.significand m.exponent) ≤ m.exponent := by
  have hlog : m.significand.log2 < 53 := (Nat.log2_lt hm.pos.ne').mpr hm.lt
  have hlow := hm.low
  rw [targetExponent_eq]
  omega

/-- A rational that a magnitude covers is rounded to it. -/
theorem Covers.roundWithAccuracy (h : m.Covers q) (hm : m.Canonical) {n : ℕ} {e : ℤ} {acc : Accuracy}
    (hrepresents : Represents (.ofMantissaAndAccuracy n acc) (q / 2 ^ e))
    (hle : e ≤ Format.binary64.targetExponent (totalExponent n e)) (s : Sign) :
    roundWithAccuracy Format.binary64 s n e acc = .finite s m.significand m.exponent hm.pos := by
  obtain ⟨t, ht⟩ : ∃ t, Format.binary64.targetExponent (totalExponent n e) = t := ⟨_, rfl⟩
  rw [ht] at hle
  obtain ⟨em, hshift, hem⟩ := represents_shiftToTargetExponent hrepresents ht hle
  have hmantissa : (ExtendedMantissa.ofMantissaAndAccuracy n acc).mantissa = n := by
    rcases acc with _ | order
    · rfl
    · cases order <;> rfl
  have hbounds := hrepresents.bounds
  rw [hmantissa] at hbounds
  have hlow : -1074 ≤ t := by
    rw [← ht, targetExponent_eq]
    exact le_max_right _ _
  obtain ⟨hlt, hge⟩ := bounds_of_targetExponent ht hle hbounds.1 hbounds.2
  rcases h.exponent hm hlow hlt hge with rfl | ⟨rfl, hnarrow, hq⟩
  · have hrounded := hem.rounded h.nearest
    simp only [UnpackedFloat.roundWithAccuracy, hshift, hrounded,
      shiftToTargetExponent_self hm.targetExponent_le, dif_neg hm.pos.ne']
  · obtain ⟨hsig, hexp⟩ := hm.narrow.mp hnarrow
    have hrounded := hem.rounded (h.nearest_below hnarrow hsig hq)
    simp only [UnpackedFloat.roundWithAccuracy, hshift, hrounded, shiftToTargetExponent_carry hexp, hsig]
    rfl

end Decimal.Magnitude

end QuantumKernels
