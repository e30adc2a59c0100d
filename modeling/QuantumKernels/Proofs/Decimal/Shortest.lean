import Mathlib
import QuantumKernels.Proofs.Binary64
import QuantumKernels.Proofs.Decimal.Reading

/-!
# Shortest decimals read back

The decimal that is written for a double lies in the span of its magnitude, so the same double is read
from it, and from every decimal of the same value.
-/
namespace QuantumKernels.Decimal

open Float.Model Float.Model.UnpackedFloat Binary64

theorem value_pow (c : ℕ) (e : ℤ) :
    (⟨c, e⟩ : Decimal).value = c * 10 ^ e.toNat / 10 ^ (-e).toNat := by
  have hsplit : e = e.toNat - (-e).toNat := by omega
  rw [value, mul_div_assoc]
  congr 1
  conv_lhs => rw [hsplit, zpow_sub₀ (by norm_num), zpow_natCast, zpow_natCast]

section

variable {n k : ℕ} (d : Decimal)

/-- Comparing a fraction with a decimal, without a fraction. -/
theorem div_le_value_iff (hk : 0 < k) :
    (n / k : ℚ) ≤ d.value ↔
      n * 10 ^ (-d.exponent).toNat ≤ d.coefficient * 10 ^ d.exponent.toNat * k := by
  rw [value_pow, div_le_div_iff₀ (by exact_mod_cast hk) (by positivity)]
  exact_mod_cast Iff.rfl

theorem value_le_div_iff (hk : 0 < k) :
    d.value ≤ (n / k : ℚ) ↔
      d.coefficient * 10 ^ d.exponent.toNat * k ≤ n * 10 ^ (-d.exponent).toNat := by
  rw [value_pow, div_le_div_iff₀ (by positivity) (by exact_mod_cast hk)]
  exact_mod_cast Iff.rfl

end

namespace Magnitude

variable {m : Magnitude}

/-- Half the way to the neighbours, as the span has it. -/
theorem span_bounds (hm : 0 < m.significand) :
    (m.span.low / m.span.denominator : ℚ) = (m.significand - m.gap) * 2 ^ m.exponent ∧
      (m.span.high / m.span.denominator : ℚ) = (m.significand + 1 / 2) * 2 ^ m.exponent := by
  have hscale : (2 : ℚ) ^ (m.exponent - 2).toNat / 2 ^ (2 - m.exponent).toNat = 2 ^ m.exponent / 4 := by
    rw [← zpow_natCast, ← zpow_natCast, ← zpow_sub₀ (by norm_num)]
    have hexponent : ((m.exponent - 2).toNat - (2 - m.exponent).toNat : ℤ) = m.exponent - 2 := by omega
    rw [hexponent, zpow_sub₀ (by norm_num)]
    norm_num
  simp only [span, gap]
  push_cast
  rw [mul_div_assoc, mul_div_assoc, hscale]
  constructor
  · split
    · rw [Nat.cast_sub (by omega)]
      push_cast
      ring
    · rw [Nat.cast_sub (by omega)]
      push_cast
      ring
  · ring

/-- A decimal in the span of a magnitude is covered by it. -/
theorem covers_of_contains (hm : 0 < m.significand) {d : Decimal} (h : m.span.contains d = true) :
    m.Covers d.value := by
  have hden : 0 < m.span.denominator := Nat.two_pow_pos _
  obtain ⟨hlow, hhigh⟩ := span_bounds hm
  rw [Span.contains] at h
  split at h
  · rename_i hclosed
    have heven : m.significand % 2 = 0 := beq_iff_eq.mp hclosed
    simp only [Bool.and_eq_true, decide_eq_true_eq] at h
    refine ⟨?_, ?_, fun hodd => by omega⟩
    · rw [← hlow, div_le_value_iff d hden]
      exact h.1
    · rw [← hhigh, value_le_div_iff d hden]
      exact h.2
  · simp only [Bool.and_eq_true, decide_eq_true_eq] at h
    have hl : (m.significand - m.gap) * 2 ^ m.exponent < d.value := by
      rw [← hlow, ← not_le, value_le_div_iff d hden, not_le]
      exact h.1
    have hr : d.value < (m.significand + 1 / 2) * 2 ^ m.exponent := by
      rw [← hhigh, ← not_le, div_le_value_iff d hden, not_le]
      exact h.2
    exact ⟨hl.le, hr.le, fun _ => ⟨hl, hr⟩⟩

/-- The magnitude itself, as a decimal. -/
theorem value_exact (m : Magnitude) : (exact m).value = m.significand * 2 ^ m.exponent := by
  rw [exact, value]
  rcases le_total 0 m.exponent with hnonneg | hneg
  · have hfive : (-m.exponent).toNat = 0 := by omega
    rw [hfive, min_eq_right hnonneg, zpow_eq_pow_toNat 2 hnonneg]
    push_cast
    rw [mul_one, mul_one]
  · have htwo : m.exponent.toNat = 0 := by omega
    have hfive : (5 : ℚ) ^ (-m.exponent).toNat * 5 ^ m.exponent = 1 := by
      rw [← zpow_natCast, ← zpow_add₀ (by norm_num), Int.toNat_of_nonneg (by omega),
        neg_add_cancel, zpow_zero]
    have hten : (10 : ℚ) ^ m.exponent = 5 ^ m.exponent * 2 ^ m.exponent := by
      rw [← mul_zpow]
      norm_num
    rw [htwo, min_eq_left hneg, hten, pow_zero, mul_one, Nat.cast_mul, Nat.cast_pow, Nat.cast_ofNat,
      mul_assoc, ← mul_assoc (5 ^ _ : ℚ), hfive, one_mul]

theorem covers_exact (m : Magnitude) : m.Covers (exact m).value := by
  have hunit : (0 : ℚ) < 2 ^ m.exponent := by positivity
  have hgap := m.gap_bounds.1
  have hl : (m.significand - m.gap) * 2 ^ m.exponent < m.significand * 2 ^ m.exponent :=
    mul_lt_mul_of_pos_right (by linarith) hunit
  have hr : (m.significand : ℚ) * 2 ^ m.exponent < (m.significand + 1 / 2) * 2 ^ m.exponent :=
    mul_lt_mul_of_pos_right (by linarith) hunit
  rw [value_exact]
  exact ⟨hl.le, hr.le, fun _ => ⟨hl, hr⟩⟩

end Magnitude

/-- Moving zeros into the exponent keeps the value. -/
theorem value_strip (bound : ℕ) (d : Decimal) : (strip bound d).value = d.value := by
  induction bound generalizing d with
  | zero => rfl
  | succ bound ih =>
    rw [strip]
    split
    · rename_i h
      rw [ih, value, value, zpow_add_one₀ (by norm_num)]
      have hdiv : (d.coefficient : ℚ) = 10 * (d.coefficient / 10 : ℕ) := by
        exact_mod_cast (Nat.mul_div_cancel' (Nat.dvd_of_mod_eq_zero h.2)).symm
      rw [hdiv]
      ring
    · rfl

theorem contains_of_onGrid {s : Span} {tie : Tie} {exponent : ℤ} {d : Decimal}
    (h : s.onGrid tie exponent = some d) : s.contains d = true := by
  unfold Span.onGrid at h
  dsimp only at h
  split at h
  · cases h
  · rename_i hbelow _
    cases h
    exact hbelow
  · rename_i _ habove
    cases h
    exact habove
  · rename_i hbelow habove
    split at h
    · cases h
      exact hbelow
    · cases h
      exact habove
    · cases tie with
      | upward =>
        cases h
        exact habove
      | toEven =>
        cases h
        split
        · exact hbelow
        · exact habove

theorem covers_shortest (tie : Tie) {bits : UInt64} (h : 0 < (Magnitude.ofBits bits).significand) :
    (Magnitude.ofBits bits).Covers (shortest tie bits).value := by
  rw [shortest, if_neg h.ne']
  dsimp only
  split
  · rename_i d hd
    obtain ⟨n, -, hn⟩ := List.exists_of_findSome?_eq_some hd
    rw [value_strip]
    exact Magnitude.covers_of_contains h (contains_of_onGrid hn)
  · rw [value_strip]
    exact Magnitude.covers_exact _

/-- The magnitude of the bits of a number is one of the format. -/
theorem ofBits_of_fields {bits : UInt64} {s : Sign} {m : ℕ} {e : ℤ} (h : Fields bits.toBitVec s m e)
    (hm : 0 < m) : ∃ narrow, Magnitude.ofBits bits = ⟨m, e, narrow⟩ ∧
      Magnitude.Canonical ⟨m, e, narrow⟩ ∧ e ≤ 971 := by
  have hsize : (@unpackMantissa Format.binary64 bits.toBitVec).toNat < 2 ^ 52 := BitVec.isLt _
  have hlt := h.lt
  have hparts := h.parts
  simp only [Magnitude.ofBits, ← toNat_unpackExponent, ← toNat_unpackMantissa]
  generalize (@unpackExponent Format.binary64 bits.toBitVec).toNat = field at hlt hparts ⊢
  generalize (@unpackMantissa Format.binary64 bits.toBitVec).toNat = fraction at hsize hparts ⊢
  rcases hparts with ⟨rfl, rfl, rfl⟩ | ⟨hpos, rfl, rfl⟩
  · refine ⟨false, rfl, ⟨hm, ?_, le_rfl, .inl rfl, ?_⟩, by decide⟩
    · change m < 2 ^ 53
      omega
    · change false = true ↔ m = 2 ^ 52 ∧ _
      simp
  · rw [if_neg hpos.ne']
    refine ⟨_, rfl, ⟨hm, ?_, ?_, .inr ?_, ?_⟩, by omega⟩
    · change 2 ^ 52 + fraction < 2 ^ 53
      omega
    · change -1074 ≤ (field : ℤ) - 1075
      omega
    · change 2 ^ 52 ≤ 2 ^ 52 + fraction
      omega
    · simp only [Bool.and_eq_true, beq_iff_eq, decide_eq_true_eq]
      omega

/-- Every decimal that has the value of the one that is written is read as the same magnitude. -/
theorem toModel_toFloat_of_value_shortest {x : Float} {s : Sign} {m : ℕ} {e : ℤ} {hm : 0 < m}
    (h : x.toModel.unpack = .finite s m e hm) {tie : Tie} {d : Decimal}
    (hd : d.value = (shortest tie x.toBits).value) :
    d.toFloat.toModel = Float.Model.pack (.finite .positive m e hm) := by
  have hfields : Fields x.toBits.toBitVec s m e := fields_of_unpack h
  obtain ⟨narrow, hbits, hcanonical, hmax⟩ := ofBits_of_fields hfields hm
  have hpos : 0 < (Magnitude.ofBits x.toBits).significand := by
    rw [hbits]
    exact hm
  have hcovers := covers_shortest tie hpos
  rw [hbits, ← hd] at hcovers
  exact hcovers.toModel_toFloat hcanonical hmax

/-- So it is read as the double itself, up to the sign. -/
theorem toFloat_of_value_shortest {x : Float} {m : ℕ} {e : ℤ} {hm : 0 < m}
    (h : x.toModel.unpack = .finite .positive m e hm) {tie : Tie} {d : Decimal}
    (hd : d.value = (shortest tie x.toBits).value) : d.toFloat = x := by
  have hmodel := toModel_toFloat_of_value_shortest h hd
  rw [pack_unpack h] at hmodel
  exact congrArg Float.ofModel hmodel

theorem neg_toFloat_of_value_shortest {x : Float} {m : ℕ} {e : ℤ} {hm : 0 < m}
    (h : x.toModel.unpack = .finite .negative m e hm) {tie : Tie} {d : Decimal}
    (hd : d.value = (shortest tie x.toBits).value) : -d.toFloat = x :=
  neg_eq_of_pack h (toModel_toFloat_of_value_shortest h hd)

end QuantumKernels.Decimal
