import Mathlib
import QuantumKernels.Decimal.Numeral
import QuantumKernels.Proofs.Binary64
import QuantumKernels.Proofs.Decimal.Rounding
import QuantumKernels.Proofs.Simulator.Unit

/-!
# Decimals read as doubles

A decimal is read as the magnitude in whose span it lies. A short coefficient and a small power of ten
are doubles, so one rounded product or quotient of them is enough; any other decimal is rounded from
its exact product or quotient.
-/
namespace QuantumKernels

open Float.Model Float.Model.UnpackedFloat

namespace Binary64

/-- A long mantissa is not rounded below its last bit. -/
theorem le_targetExponent {n : ℕ} (h : 2 ^ 52 ≤ n) (e : ℤ) :
    e ≤ Format.binary64.targetExponent (totalExponent n e) := by
  have hlog : 52 ≤ n.log2 := (Nat.le_log2 (by omega)).mpr h
  rw [targetExponent_eq]
  omega

/-- The whole part of a quotient, and how exact it is. -/
theorem represents_accuracyOfFraction (n : ℕ) {b : ℕ} (hb : 0 < b) :
    Represents (.ofMantissaAndAccuracy (n / b) (accuracyOfFraction (n % b) b)) (n / b) := by
  have hpos : (0 : ℚ) < b := by exact_mod_cast hb
  have hlt : ((n % b : ℕ) : ℚ) < b := by exact_mod_cast Nat.mod_lt n hb
  have hquotient : (n : ℚ) / b = (n / b : ℕ) + (n % b : ℕ) / b := by
    have hsplit : (n : ℚ) = b * (n / b : ℕ) + (n % b : ℕ) := by
      exact_mod_cast (Nat.div_add_mod n b).symm
    rw [div_eq_iff hpos.ne', add_mul, div_mul_cancel₀ _ hpos.ne', mul_comm]
    exact hsplit
  have hone : ((n % b : ℕ) : ℚ) / b < 1 := (div_lt_one hpos).mpr hlt
  rw [hquotient, accuracyOfFraction]
  split
  · rename_i hzero
    rw [hzero, Nat.cast_zero, zero_div, add_zero]
    rfl
  · rename_i hzero
    have hfraction : 0 < ((n % b : ℕ) : ℚ) / b := by
      have : 0 < n % b := Nat.pos_of_ne_zero hzero
      positivity
    rcases hcompare : compare (2 * (n % b)) b with _ | _ | _ <;>
      simp only [Represents, ExtendedMantissa.ofMantissaAndAccuracy]
    · have hhalf : ((n % b : ℕ) : ℚ) / b < 1 / 2 := by
        have : (2 * (n % b : ℕ) : ℚ) < b := by exact_mod_cast compare_lt_iff_lt.mp hcompare
        rw [div_lt_iff₀ hpos]
        linarith
      exact ⟨by linarith, by linarith⟩
    · have hhalf : ((n % b : ℕ) : ℚ) / b = 1 / 2 := by
        have : (2 * (n % b : ℕ) : ℚ) = b := by exact_mod_cast compare_eq_iff_eq.mp hcompare
        rw [div_eq_iff hpos.ne']
        linarith
      rw [hhalf]
    · have hhalf : 1 / 2 < ((n % b : ℕ) : ℚ) / b := by
        have : (b : ℚ) < 2 * (n % b : ℕ) := by exact_mod_cast compare_gt_iff_gt.mp hcompare
        rw [lt_div_iff₀ hpos]
        linarith
      exact ⟨by linarith, by linarith⟩

/-- The exponent of a quotient before it is rounded. -/
def quotientExponent (a : ℕ) (i : ℤ) (b : ℕ) (j : ℤ) : ℤ :=
  min (i - j) (max (a.log2 + i - (b.log2 + j) - 53) (-1074))

theorem divCore_eq (a : ℕ) (i : ℤ) (b : ℕ) (j : ℤ) :
    let t := quotientExponent a i b j
    let n := a * 2 ^ (i - j - t).toNat
    divCore Format.binary64 a i b j = (n / b, t, accuracyOfFraction (n % b) b) := by
  have htarget : Format.binary64.targetExponent (totalExponent a i - totalExponent b j) =
      max (a.log2 + i - (b.log2 + j) - 53) (-1074) := by
    simp only [Format.targetExponent, totalExponent, Format.mantissaBits, Format.minExponent]
    norm_num
    omega
  simp only [divCore, htarget, Nat.shiftLeft_eq, quotientExponent]

/-- A quotient has enough bits to be rounded. -/
theorem quotientExponent_le {a b : ℕ} (ha : 0 < a) (hb : 0 < b) (i j : ℤ) :
    let t := quotientExponent a i b j
    t ≤ Format.binary64.targetExponent (totalExponent (a * 2 ^ (i - j - t).toNat / b) t) := by
  intro t
  have hleft : t ≤ i - j := min_le_left _ _
  have hright : t ≤ max (a.log2 + i - (b.log2 + j) - 53) (-1074) := min_le_right _ _
  rcases le_max_iff.mp hright with hlong | hmin
  · have hsum : 53 + b.log2 ≤ a.log2 + (i - j - t).toNat := by omega
    refine le_targetExponent ((Nat.le_div_iff_mul_le hb).mpr ?_) t
    calc 2 ^ 52 * b ≤ 2 ^ 52 * 2 ^ (b.log2 + 1) := Nat.mul_le_mul_left _ Nat.lt_log2_self.le
      _ = 2 ^ (53 + b.log2) := by ring
      _ ≤ 2 ^ (a.log2 + (i - j - t).toNat) := Nat.pow_le_pow_right (by decide) hsum
      _ = 2 ^ a.log2 * 2 ^ (i - j - t).toNat := pow_add _ _ _
      _ ≤ a * 2 ^ (i - j - t).toNat := Nat.mul_le_mul_right _ (Nat.log2_self_le ha.ne')
  · rw [targetExponent_eq]
    exact hmin.trans (le_max_right _ _)

end Binary64

namespace Decimal

open Binary64

/-- The rational that a decimal is. -/
def value (d : Decimal) : ℚ := d.coefficient * 10 ^ d.exponent

namespace Magnitude

variable {m : Magnitude} {q : ℚ}

/-- A product is rounded once. -/
theorem Covers.mul (h : m.Covers q) (hm : m.Canonical) {a b : ℕ} {i j : ℤ} (ha : 0 < a) (hb : 0 < b)
    (hq : q = a * 2 ^ i * (b * 2 ^ j)) (hlong : 2 ^ 52 ≤ a * b) :
    UnpackedFloat.mul Format.binary64 (.finite .positive a i ha) (.finite .positive b j hb) =
      .finite .positive m.significand m.exponent hm.pos := by
  have hexact : Represents (.ofMantissaAndAccuracy (a * b) .exact) (q / 2 ^ (i + j)) := by
    change q / 2 ^ (i + j) = (a * b : ℕ)
    rw [hq, zpow_add₀ (by norm_num)]
    push_cast
    field_simp
  exact h.roundWithAccuracy hm hexact (le_targetExponent hlong _) _

/-- A quotient is rounded once. -/
theorem Covers.div (h : m.Covers q) (hm : m.Canonical) {a b : ℕ} {i j : ℤ} (ha : 0 < a) (hb : 0 < b)
    (hq : q = a * 2 ^ i / (b * 2 ^ j)) :
    UnpackedFloat.div Format.binary64 (.finite .positive a i ha) (.finite .positive b j hb) =
      .finite .positive m.significand m.exponent hm.pos := by
  have hleft : quotientExponent a i b j ≤ i - j := min_le_left _ _
  have hle := quotientExponent_le ha hb i j
  have hcore := divCore_eq a i b j
  generalize quotientExponent a i b j = t at hleft hle hcore
  have hexact : q / 2 ^ t = (a * 2 ^ (i - j - t).toNat : ℕ) / b := by
    have hshift : (2 : ℚ) ^ (i - j - t).toNat = 2 ^ i / 2 ^ j / 2 ^ t := by
      rw [← zpow_natCast, Int.toNat_of_nonneg (by omega), zpow_sub₀ (by norm_num),
        zpow_sub₀ (by norm_num)]
    rw [hq, Nat.cast_mul, Nat.cast_pow, Nat.cast_ofNat, hshift]
    field_simp
  have hrepresents := represents_accuracyOfFraction (a * 2 ^ (i - j - t).toNat) hb
  rw [← hexact] at hrepresents
  rw [UnpackedFloat.div, hcore]
  exact h.roundWithAccuracy hm hrepresents hle _

/-- A decimal that is not far out of the range of doubles is rounded from its exact value. -/
theorem Covers.ofScientific {n : ℕ} {e : ℤ} (h : m.Covers (n * 10 ^ e)) (hm : m.Canonical) (hn : 0 < n)
    (hlow : -(2 ^ 11 + n.log2) ≤ e) (hhigh : e ≤ 2 ^ 11) :
    UnpackedFloat.ofScientific Format.binary64 n e = .finite .positive m.significand m.exponent hm.pos := by
  have hsmall : ¬ e > 2 ^ Format.binary64.exponentBits := not_lt.mpr hhigh
  have hlarge : ¬ e < -((2 ^ Format.binary64.exponentBits : ℤ) + n.log2) := not_lt.mpr hlow
  rw [UnpackedFloat.ofScientific, dif_neg hn.ne', if_neg hsmall, if_neg hlarge]
  split
  · rename_i hnonneg
    have hpower : (10 : ℚ) ^ e = (10 ^ e.toNat : ℕ) := by
      rw [Nat.cast_pow, Nat.cast_ofNat, zpow_eq_pow_toNat 10 hnonneg]
    have hlong : 2 ^ 52 ≤ n <<< Format.binary64.mantissaBits * 10 ^ e.toNat := by
      have hpos : 0 < n * 10 ^ e.toNat := by positivity
      calc 2 ^ 52 ≤ n * 10 ^ e.toNat * 2 ^ 53 := by omega
        _ = n <<< Format.binary64.mantissaBits * 10 ^ e.toNat := by
          rw [Nat.shiftLeft_eq, mul_right_comm]
          rfl
    refine h.mul hm _ _ ?_ hlong
    rw [hpower, Nat.shiftLeft_eq, Nat.cast_mul, zpow_zero, mul_one, zpow_neg, zpow_natCast]
    congr 1
    rw [Nat.cast_pow, Nat.cast_ofNat, mul_inv_cancel_right₀ (by positivity)]
  · rename_i hneg
    have hpower : (10 : ℚ) ^ e = ((10 ^ (-e).toNat : ℕ) : ℚ)⁻¹ := by
      rw [Nat.cast_pow, Nat.cast_ofNat, ← zpow_natCast, ← zpow_neg]
      congr 1
      omega
    refine h.div hm _ _ ?_
    rw [hpower, zpow_zero, mul_one, mul_one, div_eq_mul_inv]

end Magnitude

/-- The powers of ten up to `10 ^ 22` are doubles. -/
theorem powerOfTen_eq_pack : ∀ e (_ : e < Float.exactlyRepresentablePowersOfTen.size),
    Float.exactlyRepresentablePowersOfTen[e].toModel = Float.Model.pack (.finite .positive
      (5 ^ e * 2 ^ (52 - (5 ^ e).log2)) (e + (5 ^ e).log2 - 52) (by positivity)) := by
  decide +kernel

theorem log2_five_pow {e : ℕ} (he : e ≤ 22) : (5 ^ e).log2 < 53 := by
  refine (Nat.log2_lt (by positivity)).mpr ?_
  calc 5 ^ e ≤ 5 ^ 22 := Nat.pow_le_pow_right (by decide) he
    _ < 2 ^ 53 := by decide

theorem normal_powerOfTen {e : ℕ} (he : e < Float.exactlyRepresentablePowersOfTen.size) :
    Normal Float.exactlyRepresentablePowersOfTen[e] (5 ^ e * 2 ^ (52 - (5 ^ e).log2))
      (e + (5 ^ e).log2 - 52) := by
  have hsize : e ≤ 22 := Nat.le_of_lt_succ he
  have hlog := log2_five_pow hsize
  have hlong : (5 ^ e * 2 ^ (52 - (5 ^ e).log2)).log2 = 52 := by
    rw [log2_mul_pow (by positivity)]
    omega
  refine ⟨by positivity, hlong, ?_⟩
  rw [powerOfTen_eq_pack e he]
  exact unpack_pack hlong _ (by omega) (by omega)

/-- Filling a number up to 53 bits does not change it. -/
theorem value_filled {n : ℕ} (hlog : n.log2 < 53) (i : ℤ) :
    ((n * 2 ^ (52 - n.log2) : ℕ) : ℚ) * 2 ^ (i + n.log2 - 52) = n * 2 ^ i := by
  have hexponent : i + n.log2 - 52 = i - (52 - n.log2 : ℕ) := by omega
  rw [hexponent, Nat.cast_mul, Nat.cast_pow, Nat.cast_ofNat, zpow_sub₀ (by norm_num), zpow_natCast]
  field_simp

/-- A decimal that is covered and not far out of the range of doubles is read as the magnitude. -/
theorem Magnitude.Covers.toModel_ofScientific {m : Magnitude} {n : ℕ} {e : ℤ} (h : m.Covers (n * 10 ^ e))
    (hm : m.Canonical) (hn : 0 < n) (hlow : -(2 ^ 11 + n.log2) ≤ e) (hhigh : e ≤ 2 ^ 11) :
    (Float.ofScientific n (e < 0) e.natAbs).toModel =
      Float.Model.pack (.finite .positive m.significand m.exponent hm.pos) := by
  rw [Float.ofScientific]
  split
  · rename_i hfast
    obtain ⟨hlimit, hsmall⟩ := hfast
    have hsize : e.natAbs < Float.exactlyRepresentablePowersOfTen.size := Nat.lt_succ_of_le hsmall
    obtain ⟨ha, hfull, hword⟩ := normal_toFloat hn hlimit
    obtain ⟨hb, -, hpower⟩ := normal_powerOfTen hsize
    have hword' : ((n * 2 ^ (52 - n.log2) : ℕ) : ℚ) * 2 ^ (n.log2 - 52 : ℤ) = n := by
      simpa using value_filled ((Nat.log2_lt hn.ne').mpr hlimit) 0
    have hpower' : ((5 ^ e.natAbs * 2 ^ (52 - (5 ^ e.natAbs).log2) : ℕ) : ℚ) *
        2 ^ (e.natAbs + (5 ^ e.natAbs).log2 - 52 : ℤ) = 10 ^ e.natAbs := by
      rw [value_filled (log2_five_pow hsmall), Nat.cast_pow, Nat.cast_ofNat, zpow_natCast, ← mul_pow]
      norm_num
    rcases lt_or_ge e 0 with hneg | hnonneg
    · have hvalue : (10 : ℚ) ^ e = (10 ^ e.natAbs)⁻¹ := by
        rw [← zpow_natCast, ← zpow_neg]
        congr 1
        omega
      rw [if_pos (decide_eq_true hneg)]
      change Float.Model.pack (UnpackedFloat.div _ (Float.toModel _).unpack (Float.toModel _).unpack) = _
      rw [hword, hpower, h.div hm ha hb ?_]
      rw [hword', hpower', hvalue, div_eq_mul_inv]
    · have hvalue : (10 : ℚ) ^ e = 10 ^ e.natAbs := by
        rw [← zpow_natCast]
        congr 1
        omega
      rw [if_neg (by simpa using hnonneg)]
      change Float.Model.pack (UnpackedFloat.mul _ (Float.toModel _).unpack (Float.toModel _).unpack) = _
      rw [hword, hpower, h.mul hm ha hb ?_ ?_]
      · rw [hword', hpower', hvalue]
      · have hlong := (Nat.log2_eq_iff ha.ne').mp hfull
        exact hlong.1.trans (Nat.le_mul_of_pos_right _ hb)
  · have hexponent :
        (if decide (e < 0) = true then Int.negOfNat e.natAbs else Int.ofNat e.natAbs) = e := by
      rcases lt_or_ge e 0 with hneg | hnonneg
      · rw [if_pos (decide_eq_true hneg), Int.negOfNat_eq, Int.ofNat_eq_natCast]
        omega
      · rw [if_neg (by simpa using hnonneg), Int.ofNat_eq_natCast]
        omega
    change Float.Model.pack (UnpackedFloat.ofScientific Format.binary64 n _) = _
    rw [hexponent, h.ofScientific hm hn hlow hhigh]

/-- The leading digit stands at a power of ten that bounds the value. -/
theorem value_bounds {d : Decimal} (hd : 0 < d.coefficient) {lead : ℤ}
    (hlead : (Nat.toDigits 10 d.coefficient).length + d.exponent = lead) :
    10 ^ (lead - 1) ≤ d.value ∧ d.value < 10 ^ lead := by
  have hpos := Nat.length_toDigits_pos (b := 10) (n := d.coefficient)
  have hlength (k : ℕ) (hk : 0 < k) :
      (Nat.toDigits 10 d.coefficient).length ≤ k ↔ d.coefficient < 10 ^ k :=
    Nat.length_toDigits_le_iff (by decide) hk
  generalize (Nat.toDigits 10 d.coefficient).length = k at hpos hlength hlead
  have hunit : (0 : ℚ) < 10 ^ d.exponent := by positivity
  rw [value]
  constructor
  · have hsum : lead - 1 = (k - 1 : ℕ) + d.exponent := by omega
    rw [hsum, zpow_add₀ (by norm_num), zpow_natCast, mul_le_mul_iff_left₀ hunit]
    rcases Nat.eq_zero_or_pos (k - 1) with hzero | hmore
    · rw [hzero, pow_zero]
      exact_mod_cast hd
    · have hle := (hlength (k - 1) hmore).not.mp (by omega)
      exact_mod_cast not_lt.mp hle
  · rw [← hlead, zpow_add₀ (by norm_num), zpow_natCast, mul_lt_mul_iff_left₀ hunit]
    exact_mod_cast (hlength k hpos).mp le_rfl

theorem two_zpow_lt : (2 : ℚ) ^ (1200 : ℤ) < 10 ^ (400 : ℤ) := by
  have hcube : (2 : ℚ) ^ (3 * 400 : ℤ) = ((2 : ℚ) ^ (3 : ℤ)) ^ (400 : ℤ) := zpow_mul 2 3 400
  rw [show (1200 : ℤ) = 3 * 400 by rfl, hcube]
  exact zpow_lt_zpow_left₀ (by norm_num) (by norm_num) (by norm_num)

/-- What a magnitude of the format covers is in the range of doubles. -/
theorem Magnitude.Covers.range {m : Magnitude} {q : ℚ} (h : m.Covers q) (hm : m.Canonical)
    (hmax : m.exponent ≤ 971) : 10 ^ (-400 : ℤ) < q ∧ q < 10 ^ (400 : ℤ) := by
  have hgap := m.gap_bounds.2
  constructor
  · have hone : (1 : ℚ) ≤ m.significand := by exact_mod_cast hm.pos
    calc (10 : ℚ) ^ (-400 : ℤ) < 2 ^ (-1200 : ℤ) := by
          rw [zpow_neg, zpow_neg]
          exact inv_strictAnti₀ (by positivity) two_zpow_lt
      _ ≤ 2 ^ (-1 + -1074 : ℤ) := two_zpow_le (by norm_num)
      _ = 1 / 2 * 2 ^ (-1074 : ℤ) := by rw [zpow_add₀ (by norm_num), zpow_neg_one, one_div]
      _ ≤ (m.significand - m.gap) * 2 ^ m.exponent :=
        mul_le_mul (by linarith) (two_zpow_le hm.low) (by positivity) (by linarith)
      _ ≤ q := h.low
  · have hlimit : (m.significand : ℚ) + 1 ≤ 2 ^ 53 := by exact_mod_cast hm.lt
    calc q ≤ (m.significand + 1 / 2) * 2 ^ m.exponent := h.high
      _ ≤ 2 ^ (53 : ℤ) * 2 ^ (971 : ℤ) :=
        mul_le_mul (by rw [zpow_ofNat]; linarith) (two_zpow_le hmax) (by positivity) (by positivity)
      _ = 2 ^ (53 + 971 : ℤ) := (zpow_add₀ (by norm_num) _ _).symm
      _ ≤ 2 ^ (1200 : ℤ) := two_zpow_le (by norm_num)
      _ < 10 ^ (400 : ℤ) := two_zpow_lt

/-- A decimal is read as the magnitude that covers it. -/
theorem Magnitude.Covers.toModel_toFloat {m : Magnitude} {d : Decimal} (h : m.Covers d.value)
    (hm : m.Canonical) (hmax : m.exponent ≤ 971) :
    d.toFloat.toModel = Float.Model.pack (.finite .positive m.significand m.exponent hm.pos) := by
  obtain ⟨hlow, hhigh⟩ := h.range hm hmax
  have hd : 0 < d.coefficient := by
    by_contra hzero
    have hvalue : d.value = 0 := by
      rw [value, Nat.eq_zero_of_not_pos hzero, Nat.cast_zero, zero_mul]
    rw [hvalue] at hlow
    exact absurd hlow (not_lt.mpr (by positivity))
  obtain ⟨hge, hlt⟩ := value_bounds hd rfl
  have hmin : -400 < (Nat.toDigits 10 d.coefficient).length + d.exponent :=
    (zpow_lt_zpow_iff_right₀ (by norm_num)).mp (hlow.trans hlt)
  have hmax : (Nat.toDigits 10 d.coefficient).length + d.exponent - 1 < 400 :=
    (zpow_lt_zpow_iff_right₀ (by norm_num)).mp (hge.trans_lt hhigh)
  have hdigits : (Nat.toDigits 10 d.coefficient).length ≤ d.coefficient.log2 + 1 := by
    refine (Nat.length_toDigits_le_iff (by decide) (Nat.succ_pos _)).mpr ?_
    exact Nat.lt_log2_self.trans_le (Nat.pow_le_pow_left (by decide) _)
  have hpos := Nat.length_toDigits_pos (b := 10) (n := d.coefficient)
  rw [toFloat, if_neg (by simp; omega), if_neg (by omega)]
  exact h.toModel_ofScientific hm hd (by omega) (by omega)

theorem hasSign_roundWithAccuracy (s : Sign) (n : ℕ) (e : ℤ) (acc : Accuracy) :
    HasSign s (UnpackedFloat.roundWithAccuracy Format.binary64 s n e acc) := by
  simp only [UnpackedFloat.roundWithAccuracy]
  split_ifs <;> rfl

section

variable {a b : ℕ} (i j : ℤ) (ha : 0 < a) (hb : 0 < b)

theorem hasSign_mul : HasSign .positive
    (UnpackedFloat.mul Format.binary64 (.finite .positive a i ha) (.finite .positive b j hb)) :=
  hasSign_roundWithAccuracy .positive _ _ _

theorem hasSign_div : HasSign .positive
    (UnpackedFloat.div Format.binary64 (.finite .positive a i ha) (.finite .positive b j hb)) :=
  hasSign_roundWithAccuracy .positive _ _ _

end

theorem hasSign_ofScientific (n : ℕ) (e : ℤ) :
    HasSign .positive (UnpackedFloat.ofScientific Format.binary64 n e) := by
  rw [UnpackedFloat.ofScientific]
  split_ifs
  · rfl
  · rfl
  · rfl
  · exact hasSign_mul _ _ _ _
  · exact hasSign_div _ _ _ _

/-- A decimal is read as a number with a plus sign, or as infinity. -/
theorem hasSign_toFloat (d : Decimal) : HasSign .positive d.toFloat.toModel.unpack := by
  simp only [toFloat]
  split_ifs with hzero
  · rfl
  · rfl
  · have hn : 0 < d.coefficient := by
      simp only [Bool.or_eq_true, decide_eq_true_eq, not_or] at hzero
      omega
    rw [Float.ofScientific]
    split
    · rename_i hfast
      obtain ⟨hlimit, hsmall⟩ := hfast
      obtain ⟨ha, -, hword⟩ := normal_toFloat hn hlimit
      have hsize : d.exponent.natAbs < Float.exactlyRepresentablePowersOfTen.size :=
        Nat.lt_succ_of_le hsmall
      obtain ⟨hb, -, hpower⟩ := normal_powerOfTen hsize
      split
      · refine hasSign_unpack_pack
          (u := UnpackedFloat.div _ (Float.toModel _).unpack (Float.toModel _).unpack) ?_
        rw [hword, hpower]
        exact hasSign_div _ _ _ _
      · refine hasSign_unpack_pack
          (u := UnpackedFloat.mul _ (Float.toModel _).unpack (Float.toModel _).unpack) ?_
        rw [hword, hpower]
        exact hasSign_mul _ _ _ _
    · exact hasSign_unpack_pack (hasSign_ofScientific _ _)

end Decimal

end QuantumKernels
