import Mathlib
import QuantumKernels.Proofs.Decimal.Layout
import QuantumKernels.Proofs.Decimal.Nearest

/-!
# What is kept of a numeral

Digits that do not fit a word are dropped, so what is kept of a numeral is not above it. It is scaled
with two roundings at most, so a numeral is read unless it comes as near to the end of doubles.
-/
namespace QuantumKernels.Json

open Decimal (Numeral digitsValue)
open Float.Model Float.Model.UnpackedFloat Binary64

/-- The rational that the kept digits stand for. -/
def Kept.rational (k : Kept) : ℚ := k.significand * 10 ^ k.exponent

/-- What the kept digits may come to be with two roundings stays below the end of doubles. -/
def Kept.Bounded (k : Kept) : Prop := k.rational * (1 + unitRoundoff) ^ 2 < overflow

theorem overflow_eq : overflow = ((2 ^ 54 - 1) * 2 ^ 970 : ℕ) := by
  have hhalf : (2 : ℚ) ^ (971 : ℤ) = 2 * 2 ^ 970 := by
    rw [show (971 : ℤ) = (970 : ℕ) + 1 by rfl, zpow_add_one₀ (by norm_num), zpow_natCast, mul_comm]
  rw [overflow, hhalf, Nat.cast_mul, Nat.cast_pow, Nat.cast_ofNat]
  generalize (2 : ℚ) ^ 970 = unit
  norm_num
  ring

theorem ten_pow_bounds : (10 : ℚ) ^ 308 < overflow ∧ overflow < 10 ^ 309 := by
  have hlow : 10 ^ 308 < (2 ^ 54 - 1) * 2 ^ 970 := by decide +kernel
  have hhigh : (2 ^ 54 - 1) * 2 ^ 970 < 10 ^ 309 := by decide +kernel
  have hcast (e : ℕ) : (10 : ℚ) ^ e = (10 ^ e : ℕ) := by rw [Nat.cast_pow, Nat.cast_ofNat]
  rw [overflow_eq, hcast, hcast]
  exact ⟨Nat.cast_lt.mpr hlow, Nat.cast_lt.mpr hhigh⟩

theorem wordLimit_lt_overflow : (wordLimit : ℚ) < overflow := by
  have hnat : wordLimit < (2 ^ 54 - 1) * 2 ^ 970 := by decide +kernel
  rw [overflow_eq]
  exact Nat.cast_lt.mpr hnat

/-- Zero stays zero, whatever it is scaled by. -/
theorem isInf_zero_mul {y : Float} {a : ℕ} {i : ℤ} (hy : Normal y a i) : (Float.ofNat 0 * y).isInf = false := by
  obtain ⟨hpos, -, hunpack⟩ := hy
  have hzero : (Float.ofNat 0).toModel.unpack = .zero .positive := rfl
  have hproduct : UnpackedFloat.mul Format.binary64 (Float.ofNat 0).toModel.unpack y.toModel.unpack =
      .zero .positive := by
    rw [hzero, hunpack]
    rfl
  change (Float.Model.pack (UnpackedFloat.mul _ (Float.toModel _).unpack y.toModel.unpack)).unpack.isInf = false
  rw [hproduct]
  rfl

theorem exists_normal_powerOfTen {e : ℕ} (he : e ≤ 308) : ∃ a i, Normal (powerOfTen e) a i ∧ -52 ≤ i ∧
    (a : ℚ) * 2 ^ i ≤ 10 ^ e * (1 + unitRoundoff) := by
  have hlt : ((1 : ℕ) : ℚ) * 10 ^ e < overflow := by
    rw [Nat.cast_one, one_mul]
    exact (pow_le_pow_right₀ (by norm_num) he).trans_lt ten_pow_bounds.1
  obtain ⟨a, i, hnormal, hlow, herror⟩ :=
    Decimal.Magnitude.exists_normal_ofScientific Nat.one_pos (by omega) hlt
  rw [Nat.cast_one, one_mul] at herror
  exact ⟨a, i, hnormal, hlow, herror⟩

theorem exists_normal_word {n : ℕ} (hn : 0 < n) (hword : n ≤ wordLimit) : ∃ a i, Normal (Float.ofNat n) a i ∧
    -52 ≤ i ∧ (a : ℚ) * 2 ^ i ≤ n * (1 + unitRoundoff) := by
  have hlt : (n : ℚ) * 10 ^ 0 < overflow := by
    rw [pow_zero, mul_one]
    exact (Nat.cast_le.mpr hword).trans_lt wordLimit_lt_overflow
  obtain ⟨a, i, hnormal, hlow, herror⟩ := Decimal.Magnitude.exists_normal_ofScientific hn (by decide) hlt
  rw [pow_zero, mul_one] at herror
  exact ⟨a, i, hnormal, hlow, herror⟩

/-- What is kept comes to a real if it is bounded. -/
theorem Kept.value_isSome {k : Kept} (hword : k.significand ≤ wordLimit) (h : k.Bounded) : k.value.isSome := by
  obtain ⟨n, e, full⟩ := k
  cases e with
  | negSucc e => rfl
  | ofNat e =>
    have hbound : (n : ℚ) * 10 ^ e * (1 + unitRoundoff) ^ 2 < overflow := by
      rwa [Bounded, rational, Int.ofNat_eq_natCast, zpow_natCast] at h
    have hround : (1 : ℚ) ≤ 1 + unitRoundoff := by norm_num [unitRoundoff]
    rcases Nat.eq_zero_or_pos n with rfl | hn
    · by_cases hsmall : e ≤ 308
      · obtain ⟨b, j, hpower, -⟩ := exists_normal_powerOfTen hsmall
        simp [value, hsmall, isInf_zero_mul hpower]
      · have hzero : (Float.ofNat 0 == 0) = true := by decide +kernel
        simp [value, hsmall, hzero]
    · have hsmall : e ≤ 308 := by
        by_contra hlarge
        have hone : (1 : ℚ) ≤ n := by exact_mod_cast hn
        have hpast : (10 : ℚ) ^ 309 ≤ n * 10 ^ e * (1 + unitRoundoff) ^ 2 := by
          calc (10 : ℚ) ^ 309 ≤ 10 ^ e := pow_le_pow_right₀ (by norm_num) (by omega)
            _ ≤ n * 10 ^ e := le_mul_of_one_le_left (by positivity) hone
            _ ≤ n * 10 ^ e * (1 + unitRoundoff) ^ 2 :=
              le_mul_of_one_le_right (by positivity) (one_le_pow₀ hround)
        exact absurd (hpast.trans_lt hbound) (not_lt.mpr ten_pow_bounds.2.le)
      obtain ⟨a, i, ha, hi, haerror⟩ := exists_normal_word hn hword
      obtain ⟨b, j, hb, hj, hberror⟩ := exists_normal_powerOfTen hsmall
      have hproduct : (a : ℚ) * 2 ^ i * (b * 2 ^ j) < overflow := by
        calc (a : ℚ) * 2 ^ i * (b * 2 ^ j)
            ≤ n * (1 + unitRoundoff) * (10 ^ e * (1 + unitRoundoff)) := by gcongr
          _ = n * 10 ^ e * (1 + unitRoundoff) ^ 2 := by ring
          _ < overflow := hbound
      have hfinite := Decimal.Magnitude.isInf_mul ha hb hi hj hproduct
      simp [value, hsmall, hfinite]

/-! ## Digits -/

theorem le_digitsValue (n : ℕ) (ds : List Char) : n ≤ digitsValue n ds := by
  induction ds generalizing n with
  | nil => exact le_rfl
  | cons d ds ih => exact le_trans (by omega) (ih (10 * n + (d.toNat - '0'.toNat)))

/-- A whole part that fits a word is kept whole. -/
theorem foldl_addWhole {n : ℕ} {ds : List Char} (h : digitsValue n ds ≤ wordLimit) :
    ds.foldl Kept.addWhole ⟨n, 0, false⟩ = ⟨digitsValue n ds, 0, false⟩ := by
  induction ds generalizing n with
  | nil => rfl
  | cons d ds ih =>
    have hnext : digitsValue n [d] ≤ wordLimit := (le_digitsValue _ ds).trans h
    have hstep : Kept.addWhole ⟨n, 0, false⟩ d = ⟨digitsValue n [d], 0, false⟩ := by
      simp [Kept.addWhole, hnext]
    rw [List.foldl_cons, hstep]
    exact ih h

/-- What is kept after so many digits of the fraction, whose value with all of them is `n`. -/
structure Kept.Below (k : Kept) (n places : ℕ) : Prop where
  word : k.significand ≤ wordLimit
  exponent : k.full = false → k.exponent = -places
  le : k.rational ≤ n * 10 ^ (-places : ℤ)

theorem digitsValue_singleton (n : ℕ) (d : Char) :
    digitsValue n [d] = 10 * n + (d.toNat - '0'.toNat) := rfl

theorem Kept.Below.addFraction {k : Kept} {n places : ℕ} (h : k.Below n places) (d : Char) :
    (k.addFraction d).Below (digitsValue n [d]) (places + 1) := by
  have hshift : (10 : ℚ) ^ (-places : ℤ) = 10 * 10 ^ (-(places + 1 : ℕ) : ℤ) := by
    rw [Nat.cast_succ, neg_add, ← sub_eq_add_neg, zpow_sub_one₀ (by norm_num)]
    ring
  have hunit : (0 : ℚ) < 10 ^ (-(places + 1 : ℕ) : ℤ) := by positivity
  have hle := h.le
  rw [Kept.addFraction]
  split_ifs with hfull
  · refine ⟨h.word, nofun, hle.trans ?_⟩
    rw [hshift, digitsValue_singleton, ← mul_assoc]
    gcongr
    push_cast
    linarith
  · simp only [Bool.or_eq_true, decide_eq_true_eq, not_or, not_lt, Bool.not_eq_true] at hfull
    have hexponent : k.exponent = -places := h.exponent hfull.1
    refine ⟨hfull.2, fun _ => by rw [hexponent]; push_cast; ring, ?_⟩
    rw [rational, hexponent, mul_le_mul_iff_left₀ (by positivity)] at hle
    have hsum : -(places : ℤ) - 1 = -(places + 1 : ℕ) := by push_cast; ring
    change (digitsValue k.significand [d] : ℚ) * 10 ^ (k.exponent - 1) ≤ _
    rw [hexponent, hsum, digitsValue_singleton, digitsValue_singleton]
    gcongr
    exact_mod_cast hle

theorem Kept.Below.foldl_addFraction {k : Kept} {n places : ℕ} (h : k.Below n places) (ds : List Char) :
    (ds.foldl Kept.addFraction k).Below (digitsValue n ds) (places + ds.length) := by
  induction ds generalizing k n places with
  | nil => exact h
  | cons d ds ih =>
    have hrest := ih (h.addFraction d)
    rwa [Nat.add_right_comm] at hrest

/-- What is kept of a numeral fits a word and is not above the numeral. -/
theorem kept_le {n : Numeral} (hwhole : digitsValue 0 n.whole ≤ wordLimit) :
    (Kept.ofNumeral n).significand ≤ wordLimit ∧ (Kept.ofNumeral n).rational ≤ n.toDecimal.value := by
  have hstart : (Kept.mk (digitsValue 0 n.whole) 0 false).Below (digitsValue 0 n.whole) 0 :=
    ⟨hwhole, fun _ => rfl, le_rfl⟩
  have hall := hstart.foldl_addFraction (n.fraction.getD [])
  rw [Kept.ofNumeral, foldl_addWhole hwhole]
  generalize (n.fraction.getD []).foldl Kept.addFraction ⟨digitsValue 0 n.whole, 0, false⟩ = k at hall
  refine ⟨hall.word, ?_⟩
  have hscaled := mul_le_mul_of_nonneg_right hall.le (by positivity : (0 : ℚ) ≤ 10 ^ n.exponent.getD 0)
  rw [Nat.zero_add] at hscaled
  calc (k.significand : ℚ) * 10 ^ (k.exponent + n.exponent.getD 0)
      = k.rational * 10 ^ n.exponent.getD 0 := by rw [zpow_add₀ (by norm_num), ← mul_assoc, Kept.rational]
    _ ≤ _ := hscaled
    _ = n.toDecimal.value := by
      rw [mul_assoc, ← zpow_add₀ (by norm_num), neg_add_eq_sub, Decimal.value, Numeral.toDecimal,
        Decimal.digitsValue_append]

end QuantumKernels.Json
