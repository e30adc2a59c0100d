import Mathlib
import QuantumKernels.Simulator.Random

/-!
# Uniform reals

What a random stream draws as a uniform real is the quotient of a number below `2 ^ 53` and
`2 ^ 53`. None of the operations on the way to it rounds, and it lies in `[0, 1)`.
-/
namespace QuantumKernels

open Float.Model Float.Model.UnpackedFloat

namespace Binary64

theorem log2_mul_pow {m : ℕ} (hm : m ≠ 0) (k : ℕ) : (m * 2 ^ k).log2 = m.log2 + k := by
  induction k with
  | zero => simp
  | succ k ih =>
    have hpow : m * 2 ^ (k + 1) = 2 * (m * 2 ^ k) := by ring
    rw [hpow, Nat.log2_two_mul (by positivity), ih, Nat.add_assoc]

/-- Dropping zero bits leaves nothing to round. -/
theorem shiftRight_exact (m k : ℕ) :
    (ExtendedMantissa.mk (m * 2 ^ k) false false >>> k) = ⟨m, false, false⟩ := by
  change k.repeat ExtendedMantissa.shiftRightOne ⟨m * 2 ^ k, false, false⟩ = ⟨m, false, false⟩
  induction k generalizing m with
  | zero => simp [Nat.repeat]
  | succ k ih =>
    have hpow : m * 2 ^ (k + 1) = m * 2 * 2 ^ k := by ring
    rw [Nat.repeat, hpow, ih]
    simp [ExtendedMantissa.shiftRightOne]

/-- A number of 53 bits above `k` zero bits is shifted to its place. -/
theorem shiftToTargetExponent_exact {m k : ℕ} {e : ℤ} (hm : m.log2 = 52) (he : -1074 ≤ e + k) :
    shiftToTargetExponent Format.binary64 (m * 2 ^ k) e .exact = (⟨m, false, false⟩, e + k) := by
  have hm0 : m ≠ 0 := by
    rintro rfl
    simp at hm
  have htarget : Format.binary64.targetExponent (totalExponent (m * 2 ^ k) e) = e + k := by
    simp only [Format.targetExponent, totalExponent, log2_mul_pow hm0, hm, Format.mantissaBits,
      Format.minExponent]
    norm_num
    omega
  have hshift : (e + k - e).toNat = k := by omega
  simp only [shiftToTargetExponent, shiftToExponent, htarget, hshift,
    ExtendedMantissa.ofMantissaAndAccuracy, shiftRight_exact]

theorem roundWithAccuracy_exact (s : Sign) {m k : ℕ} {e : ℤ} (hm : m.log2 = 52)
    (hpos : 0 < m) (he : -1074 ≤ e + k) :
    roundWithAccuracy Format.binary64 s (m * 2 ^ k) e .exact = .finite s m (e + k) hpos := by
  have hagain : shiftToTargetExponent Format.binary64 m (e + k) .exact =
      (⟨m, false, false⟩, e + k) := by
    simpa using shiftToTargetExponent_exact (k := 0) hm (by simpa using he)
  simp [roundWithAccuracy, shiftToTargetExponent_exact hm he, ExtendedMantissa.roundedMantissa,
    ExtendedMantissa.accuracy, Accuracy.roundToNearestEven, hagain, hpos.ne']

/-- A normal number survives packing. -/
theorem unpack_pack {m : ℕ} {e : ℤ} (hm : m.log2 = 52) (hpos : 0 < m) (hlow : -1074 ≤ e)
    (hhigh : e ≤ 971) :
    (Float.Model.pack (.finite .positive m e hpos)).unpack = .finite .positive m e hpos := by
  obtain ⟨hmlow, hmhigh⟩ := (Nat.log2_eq_iff hpos.ne').mp hm
  -- the biased exponent, neither of the two that stand for numbers of other kinds
  obtain ⟨b, hb, hb0, hb1, he⟩ :
      ∃ b : ℕ, (e + 1023 + 52).toNat = b ∧ 0 < b ∧ b < 2047 ∧ (b : ℤ) - (1023 + 52) = e :=
    ⟨(e + 1075).toNat, by omega, by omega, by omega, by omega⟩
  have hpacked : UnpackedFloat.pack Format.binary64 (.finite .positive m e hpos) =
      packComponents Format.binary64 .positive (BitVec.ofNat 11 b) (BitVec.ofNat 52 m) := by
    simp [UnpackedFloat.pack, Format.exponentBias, hb, hm, Format.mantissaBits]
    omega
  have hmax : BitVec.ofNat 11 b ≠ -1#11 := by
    intro h
    have hnat := congrArg BitVec.toNat h
    rw [BitVec.toNat_ofNat, Nat.mod_eq_of_lt (by omega)] at hnat
    exact absurd (hnat ▸ hb1) (by decide)
  have hzero : BitVec.ofNat 11 b ≠ 0#11 := by
    intro h
    have hnat := congrArg BitVec.toNat h
    rw [BitVec.toNat_ofNat, Nat.mod_eq_of_lt (by omega)] at hnat
    exact absurd (hnat ▸ hb0) (by decide)
  have hmantissa : (1#1 ++ BitVec.ofNat 52 m).toNat = m := by
    have hor := Nat.two_pow_add_eq_or_of_lt (Nat.mod_lt m (Nat.two_pow_pos 52)) 1
    have hsum : 2 ^ 52 * 1 + m % 2 ^ 52 = m := by omega
    rw [BitVec.toNat_append, BitVec.toNat_ofNat, BitVec.toNat_ofNat]
    exact hor.symm.trans hsum
  have hexponent : ((BitVec.ofNat 11 b).toNat : ℤ) - ((1023 : ℕ) + (52 : ℕ)) = e := by
    rw [BitVec.toNat_ofNat, Nat.mod_eq_of_lt (by omega)]
    exact he
  change UnpackedFloat.unpack Format.binary64
    (UnpackedFloat.pack Format.binary64 (.finite .positive m e hpos)) = _
  rw [hpacked]
  unfold UnpackedFloat.unpack
  simp only [unpackExponent_packComponents, unpackMantissa_packComponents,
    unpackSign_packComponents, Sign.ofBitVec_toBitVec]
  rw [if_neg hmax, if_neg hzero]
  simp only [hmantissa]
  congr 1

/-- A double that stands for a positive number of 53 bits at an exponent. -/
def Normal (x : Float) (m : ℕ) (e : ℤ) : Prop :=
  ∃ hpos : 0 < m, m.log2 = 52 ∧ x.toModel.unpack = .finite .positive m e hpos

theorem normal_toFloat {n : ℕ} (hn : 0 < n) (hlimit : n < 2 ^ 53) :
    Normal n.toUInt64.toFloat (n * 2 ^ (52 - n.log2)) (n.log2 - 52) := by
  have hlog : n.log2 < 53 := (Nat.log2_lt hn.ne').mpr hlimit
  have hlog' : (n * 2 ^ (52 - n.log2)).log2 = 52 := by
    rw [log2_mul_pow hn.ne']
    omega
  have hpos : 0 < n * 2 ^ (52 - n.log2) := by positivity
  have htarget : Format.binary64.targetExponent (totalExponent n 0) = n.log2 - 52 := by
    simp only [Format.targetExponent, totalExponent, Format.mantissaBits, Format.minExponent]
    norm_num
    omega
  have hshift : (0 - ((n.log2 : ℤ) - 52)).toNat = 52 - n.log2 := by omega
  have hexponent : (0 : ℤ) - (52 - n.log2 : ℕ) = n.log2 - 52 := by omega
  have hround : UnpackedFloat.round Format.binary64 .positive n 0 =
      .finite .positive (n * 2 ^ (52 - n.log2)) (n.log2 - 52) hpos := by
    have hexact := roundWithAccuracy_exact .positive (k := 0) (e := n.log2 - 52) hlog' hpos (by omega)
    simp only [pow_zero, mul_one, Nat.cast_zero, add_zero] at hexact
    simp only [UnpackedFloat.round, decreaseExponent, htarget, hshift, hexponent, Nat.shiftLeft_eq, hexact]
  have hword : n.toUInt64.toNat = n := by
    rw [Nat.toUInt64, UInt64.toNat_ofNat', Nat.mod_eq_of_lt (by omega)]
  refine ⟨hpos, hlog', ?_⟩
  change (Float.Model.pack (UnpackedFloat.ofUInt64 Format.binary64 n.toUInt64)).unpack = _
  have hofNat : UnpackedFloat.ofUInt64 Format.binary64 n.toUInt64 =
      .finite .positive (n * 2 ^ (52 - n.log2)) (n.log2 - 52) hpos := by
    simp only [UnpackedFloat.ofUInt64, UnpackedFloat.ofNat, UnpackedFloat.ofInt,
      UnpackedFloat.normalize, hword]
    rw [Int.compare_eq_gt.mpr (by omega)]
    exact hround
  rw [hofNat]
  exact unpack_pack hlog' hpos (by omega) (by omega)

theorem normal_one : Normal (Float.ofBits 0x3ff0000000000000) (2 ^ 52) (-52) :=
  ⟨by decide, by decide +kernel, by rfl⟩

theorem normal_two_pow : Normal (Float.ofNat (2 ^ 53)) (2 ^ 52) 1 :=
  ⟨by decide, by decide +kernel, by rfl⟩

theorem Normal.mul_one {x y : Float} {m : ℕ} {e : ℤ} (hx : Normal x m e) (hlow : -1074 ≤ e)
    (hhigh : e ≤ 971) (hy : Normal y (2 ^ 52) (-52)) : Normal (x * y) m e := by
  obtain ⟨hpos, hm, hx⟩ := hx
  obtain ⟨hpos', -, hy⟩ := hy
  refine ⟨hpos, hm, ?_⟩
  change (Float.Model.pack (UnpackedFloat.mul Format.binary64 x.toModel.unpack y.toModel.unpack)).unpack = _
  have hround := roundWithAccuracy_exact (.positive * .positive) (k := 52) (e := e + -52) hm hpos (by omega)
  have he : e + -52 + ((52 : ℕ) : ℤ) = e := by omega
  simp only [hx, hy, UnpackedFloat.mul, hround, he]
  exact unpack_pack hm hpos hlow hhigh

theorem Normal.div_two_pow {x y : Float} {m : ℕ} {e : ℤ} (hx : Normal x m e) (hlow : -52 ≤ e)
    (hhigh : e ≤ 0) (hy : Normal y (2 ^ 52) 1) : Normal (x / y) m (e - 53) := by
  obtain ⟨hpos, hm, hx⟩ := hx
  obtain ⟨hpos', hm', hy⟩ := hy
  refine ⟨hpos, hm, ?_⟩
  have htarget : Format.binary64.targetExponent (totalExponent m e - totalExponent (2 ^ 52) 1) =
      e - 54 := by
    simp only [Format.targetExponent, totalExponent, hm, hm', Format.mantissaBits, Format.minExponent]
    norm_num
    omega
  have hcore : divCore Format.binary64 m e (2 ^ 52) 1 = (m * 2 ^ 1, e - 54, .exact) := by
    have hmin : min (e - 1) (e - 54) = e - 54 := by omega
    have hshift : (e - 1 - (e - 54)).toNat = 53 := by omega
    have hquotient : m <<< 53 / 2 ^ 52 = m * 2 ^ 1 := by
      rw [Nat.shiftLeft_eq]
      omega
    have hremainder : m <<< 53 % 2 ^ 52 = 0 := by
      rw [Nat.shiftLeft_eq]
      omega
    simp only [divCore, htarget, hmin, hshift, hquotient, hremainder, accuracyOfFraction, if_true]
  have hround := roundWithAccuracy_exact (.positive / .positive) (k := 1) (e := e - 54) hm hpos (by omega)
  have he : e - 54 + ((1 : ℕ) : ℤ) = e - 53 := by omega
  change (Float.Model.pack (UnpackedFloat.div Format.binary64 x.toModel.unpack y.toModel.unpack)).unpack = _
  simp only [hx, hy, UnpackedFloat.div, hcore, hround, he]
  exact unpack_pack hm hpos (by omega) (by omega)

/-- A natural number below `2 ^ 53` is a double. -/
theorem normal_ofNat {n : ℕ} (hn : 0 < n) (hlimit : n < 2 ^ 53) :
    Normal (Float.ofNat n) (n * 2 ^ (52 - n.log2)) (n.log2 - 52) := by
  have hlog : n.log2 < 53 := (Nat.log2_lt hn.ne').mpr hlimit
  have hfast : Float.ofNat n = n.toUInt64.toFloat * Float.ofBits 0x3ff0000000000000 := by
    change Float.ofScientific n false 0 = _
    rw [Float.ofScientific, dif_pos ⟨hlimit, by decide⟩]
    rfl
  rw [hfast]
  exact (normal_toFloat hn hlimit).mul_one (by omega) (by omega) normal_one

theorem lt_iff {x y : Float} : x < y ↔ UnpackedFloat.lt x.toModel.unpack y.toModel.unpack = true := by
  change decide (x.toModel < y.toModel) = true ↔ _
  exact decide_eq_true_iff

theorem Normal.not_neg {x : Float} {m : ℕ} {e : ℤ} (hx : Normal x m e) : ¬ x < 0 := by
  obtain ⟨hpos, -, hx⟩ := hx
  have hzero : (0 : Float).toModel.unpack = .zero .positive := by rfl
  rw [lt_iff, hx, hzero]
  simp [UnpackedFloat.lt, UnpackedFloat.compare]

theorem Normal.lt_one {x : Float} {m : ℕ} {e : ℤ} (hx : Normal x m e) (he : e < -52) : x < 1 := by
  obtain ⟨hpos, -, hx⟩ := hx
  have hone : (1 : Float).toModel.unpack = .finite .positive (2 ^ 52) (-52) (by decide) := by rfl
  rw [lt_iff, hx, hone]
  simp [UnpackedFloat.lt, UnpackedFloat.compare, Int.compare_eq_lt.mpr he]

end Binary64

/-- A uniform real lies in `[0, 1)`. -/
theorem RandomStream.unit_bounds (r : RandomStream) : ¬ r.unit.1 < 0 ∧ r.unit.1 < 1 := by
  have hlimit : (r.word r.used).toNat >>> 11 < 2 ^ 53 := by
    have hword := (r.word r.used).toNat_lt
    rw [Nat.shiftRight_eq_div_pow]
    omega
  change ¬ Float.ofNat ((r.word r.used).toNat >>> 11) / Float.ofNat (2 ^ 53) < 0 ∧
    Float.ofNat ((r.word r.used).toNat >>> 11) / Float.ofNat (2 ^ 53) < 1
  generalize (r.word r.used).toNat >>> 11 = n at hlimit
  rcases Nat.eq_zero_or_pos n with rfl | hn
  · decide +kernel
  · have hlog : n.log2 < 53 := (Nat.log2_lt hn.ne').mpr hlimit
    have hnormal := (Binary64.normal_ofNat hn hlimit).div_two_pow (by omega) (by omega)
      Binary64.normal_two_pow
    exact ⟨hnormal.not_neg, hnormal.lt_one (by omega)⟩

end QuantumKernels
