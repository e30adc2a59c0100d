import Mathlib
import QuantumKernels.Proofs.Decimal.Reading

/-!
# The error of rounding

Every rational from one up to where doubles end is covered by a magnitude, which is larger by a
relative error of `2 ^ -53` at most. So a product of doubles is finite if it stays below the end.
-/
namespace QuantumKernels

namespace Binary64

open Float.Model Float.Model.UnpackedFloat

/-- The least rational that is rounded to infinity. -/
def overflow : ℚ := (2 ^ 53 - 1 / 2) * 2 ^ (971 : ℤ)

/-- The largest relative error of one rounding. -/
def unitRoundoff : ℚ := 1 / 2 ^ 53

theorem exists_nearest {y : ℚ} (hy : 0 ≤ y) : ∃ n, Nearest y n := by
  have hfloor := Nat.floor_le hy
  have hnext := Nat.lt_floor_add_one y
  generalize ⌊y⌋₊ = n at hfloor hnext
  rcases lt_trichotomy y (n + 1 / 2) with hlow | hhalf | hhigh
  · exact ⟨n, by linarith, hlow.le, fun _ => ⟨by linarith, hlow⟩⟩
  · -- halfway between two integers, of which the even one is taken
    rcases Nat.even_or_odd n with heven | hodd
    · exact ⟨n, by linarith, hhalf.le, fun h => absurd heven (Nat.not_even_iff.mpr h)⟩
    · refine ⟨n + 1, ?_, ?_, fun h => absurd hodd.add_one (Nat.not_even_iff.mpr h)⟩ <;> push_cast <;> linarith
  · refine ⟨n + 1, ?_, ?_, fun _ => ?_⟩ <;> push_cast
    · linarith
    · linarith
    · exact ⟨by linarith, by linarith⟩

/-- The exponent at which a rational has 53 bits. -/
theorem exists_exponent {q : ℚ} (hq : 0 < q) : ∃ e : ℤ, 2 ^ (e + 52) ≤ q ∧ q < 2 ^ (e + 53) := by
  refine ⟨Int.log 2 q - 52, ?_, ?_⟩
  · simpa using Int.zpow_log_le_self (b := 2) (by decide) hq
  · have hlt := Int.lt_zpow_succ_log_self (b := 2) (by decide) q
    have hsum : Int.log 2 q - 52 + 53 = Int.log 2 q + 1 := by omega
    rw [hsum]
    simpa using hlt

end Binary64

namespace Decimal.Magnitude

open Float.Model Float.Model.UnpackedFloat Binary64

/-- Rounding to a magnitude of 53 bits. -/
structure Rounds (q : ℚ) (m : Magnitude) : Prop where
  covers : m.Covers q
  canonical : m.Canonical
  full : 2 ^ 52 ≤ m.significand
  low : -52 ≤ m.exponent
  high : m.exponent ≤ 971
  error : m.significand * 2 ^ m.exponent ≤ q * (1 + unitRoundoff)

/-- Below the end of doubles the exponent is one of the format. -/
theorem exponent_le_of_lt_overflow {q : ℚ} {e : ℤ} (hge : 2 ^ 52 * 2 ^ e ≤ q) (hlt : q < overflow) :
    e ≤ 971 := by
  by_contra hlarge
  have hstep : (2 : ℚ) ^ (972 : ℤ) ≤ 2 ^ e := two_zpow_le (by omega)
  have hdouble : (2 : ℚ) ^ (972 : ℤ) = 2 * 2 ^ (971 : ℤ) := by
    rw [show (972 : ℤ) = 971 + 1 by rfl, zpow_add_one₀ (by norm_num), mul_comm]
  have hend : (0 : ℚ) < 2 ^ (971 : ℤ) := by positivity
  have hpast : (2 : ℚ) ^ 52 * 2 ^ (972 : ℤ) ≤ q := le_trans (by gcongr) hge
  rw [hdouble] at hpast
  rw [overflow] at hlt
  generalize (2 : ℚ) ^ (971 : ℤ) = unit at hend hpast hlt
  linarith only [hend, hpast, hlt]

/-- Rounded to an integer between two powers of two. -/
theorem rounds_of_nearest {q : ℚ} {n : ℕ} {e : ℤ} (hge : 2 ^ 52 * 2 ^ e ≤ q)
    (hnearest : Nearest (q / 2 ^ e) n) (hmore : 2 ^ 52 < n) (hlt : n < 2 ^ 53) (hlow : -52 ≤ e)
    (hhigh : e ≤ 971) : Rounds q ⟨n, e, false⟩ := by
  have hunit : (0 : ℚ) < 2 ^ e := by positivity
  have hmin : -1074 ≤ e := by omega
  obtain ⟨hbelow, habove, hodd⟩ := hnearest
  rw [le_div_iff₀ hunit] at hbelow
  rw [div_le_iff₀ hunit] at habove
  refine ⟨⟨hbelow, habove, fun h => ?_⟩, ⟨pos_of_gt hmore, hlt, hmin, .inr hmore.le, ?_⟩, hmore.le, hlow,
    hhigh, ?_⟩
  · obtain ⟨hl, hr⟩ := hodd h
    exact ⟨(lt_div_iff₀ hunit).mp hl, (div_lt_iff₀ hunit).mp hr⟩
  · exact ⟨nofun, fun h => absurd h.1 hmore.ne'⟩
  · change n * 2 ^ e ≤ q * (1 + unitRoundoff)
    rw [unitRoundoff]
    linarith

/-- Rounded to a power of two, which may be from below. -/
theorem rounds_powerOfTwo {q : ℚ} {e : ℤ} (hbelow : (2 ^ 52 - 1 / 4) * 2 ^ e ≤ q)
    (habove : q ≤ (2 ^ 52 + 1 / 2) * 2 ^ e) (hlow : -52 ≤ e) (hhigh : e ≤ 971) :
    Rounds q ⟨2 ^ 52, e, true⟩ := by
  have hunit : (0 : ℚ) < 2 ^ e := by positivity
  have hmin : -1074 < e := by omega
  have hsig : ((2 ^ 52 : ℕ) : ℚ) = 2 ^ 52 := by norm_num
  refine ⟨⟨hsig ▸ hbelow, hsig ▸ habove, fun h => ?_⟩, ⟨Nat.two_pow_pos 52, ?_, hmin.le, .inr le_rfl, ?_⟩,
    le_rfl, hlow, hhigh, ?_⟩
  · exact absurd (show 2 ^ 52 % 2 = 1 from h) (by decide)
  · exact Nat.pow_lt_pow_right (by decide) (by decide)
  · exact ⟨fun _ => ⟨rfl, hmin⟩, fun _ => rfl⟩
  · change ((2 ^ 52 : ℕ) : ℚ) * 2 ^ e ≤ q * (1 + unitRoundoff)
    rw [hsig, unitRoundoff]
    linarith

theorem exists_rounds {q : ℚ} (hone : 1 ≤ q) (hlt : q < overflow) : ∃ m, Rounds q m := by
  obtain ⟨e, hge, hless⟩ := exists_exponent (zero_lt_one.trans_le hone)
  have hunit : (0 : ℚ) < 2 ^ e := by positivity
  have hlow : -52 ≤ e := by
    by_contra hsmall
    have hbelow : q < 2 ^ (0 : ℤ) := hless.trans_le (two_zpow_le (by omega))
    rw [zpow_zero] at hbelow
    linarith
  have hpow (k : ℕ) : (2 : ℚ) ^ (e + k) = 2 ^ k * 2 ^ e := by
    rw [zpow_add₀ (by norm_num), zpow_natCast, mul_comm]
  have hge : 2 ^ 52 * 2 ^ e ≤ q := by simpa using (hpow 52).symm.trans_le hge
  have hless : q < 2 ^ 53 * 2 ^ e := by simpa using hless.trans_eq (hpow 53)
  obtain ⟨n, hnearest⟩ := exists_nearest (y := q / 2 ^ e) (by positivity)
  have hbelow := (le_div_iff₀ hunit).mp hnearest.1
  have hsize : 2 ^ 52 ≤ n ∧ n ≤ 2 ^ 53 := by
    have hl : (2 : ℚ) ^ 52 ≤ q / 2 ^ e := (le_div_iff₀ hunit).mpr hge
    have hr : q / 2 ^ e < 2 ^ 53 := (div_lt_iff₀ hunit).mpr hless
    have hfull : (2 : ℚ) ^ 52 < n + 1 := by linarith [hnearest.2.1]
    have hlimit : (n : ℚ) < 2 ^ 53 + 1 := by linarith [hnearest.1]
    exact ⟨Nat.lt_succ_iff.mp (by exact_mod_cast hfull), Nat.lt_succ_iff.mp (by exact_mod_cast hlimit)⟩
  have hhigh := exponent_le_of_lt_overflow hge hlt
  rcases hsize.2.lt_or_eq with hlimit | rfl
  · rcases hsize.1.lt_or_eq with hmore | rfl
    · exact ⟨_, rounds_of_nearest hge hnearest hmore hlimit hlow hhigh⟩
    · have habove := (div_le_iff₀ hunit).mp hnearest.2.1
      push_cast at habove
      exact ⟨_, rounds_powerOfTwo (by linarith) habove hlow hhigh⟩
  · push_cast at hbelow
    have hdouble : (2 : ℚ) ^ (e + 1) = 2 * 2 ^ e := by rw [zpow_add_one₀ (by norm_num), mul_comm]
    have hmore : e < 971 := by
      refine hhigh.lt_of_ne ?_
      rintro rfl
      rw [overflow] at hlt
      linarith
    exact ⟨_, rounds_powerOfTwo (e := e + 1) (by linarith) (by linarith) (by omega) hmore⟩

/-- The double that a rational is rounded to. -/
theorem Rounds.normal {q : ℚ} {m : Magnitude} (h : Rounds q m) {x : Float}
    (hx : x.toModel = Float.Model.pack (.finite .positive m.significand m.exponent h.canonical.pos)) :
    Normal x m.significand m.exponent := by
  have hlong : m.significand.log2 = 52 := (Nat.log2_eq_iff h.canonical.pos.ne').mpr ⟨h.full, h.canonical.lt⟩
  refine ⟨h.canonical.pos, hlong, ?_⟩
  rw [hx]
  exact unpack_pack hlong _ h.canonical.low h.high

/-- A whole number is read with the error of one rounding. -/
theorem exists_normal_ofScientific {n e : ℕ} (hn : 0 < n) (he : e ≤ 2 ^ 11) (hlt : (n : ℚ) * 10 ^ e < overflow) :
    ∃ a i, Normal (Float.ofScientific n false e) a i ∧ -52 ≤ i ∧
      (a : ℚ) * 2 ^ i ≤ n * 10 ^ e * (1 + unitRoundoff) := by
  have hone : (1 : ℚ) ≤ n * 10 ^ e := by
    have hpos : 0 < n * 10 ^ e := by positivity
    exact_mod_cast hpos
  obtain ⟨m, h⟩ := exists_rounds hone hlt
  refine ⟨m.significand, m.exponent, h.normal ?_, h.low, h.error⟩
  have hcovers : m.Covers (n * 10 ^ (e : ℤ)) := by
    rw [zpow_natCast]
    exact h.covers
  have hmodel := hcovers.toModel_ofScientific h.canonical hn (by omega) (by exact_mod_cast he)
  rwa [decide_eq_false (by omega), Int.natAbs_natCast] at hmodel

theorem one_le_of_normal {x : Float} {a : ℕ} {i : ℤ} (hx : Normal x a i) (hi : -52 ≤ i) :
    (1 : ℚ) ≤ a * 2 ^ i := by
  obtain ⟨hpos, hlong, -⟩ := hx
  have hfull : (2 : ℚ) ^ 52 ≤ a := by exact_mod_cast ((Nat.log2_eq_iff hpos.ne').mp hlong).1
  calc (1 : ℚ) = 2 ^ 52 * 2 ^ (-52 : ℤ) := by norm_num
    _ ≤ a * 2 ^ i := mul_le_mul hfull (two_zpow_le hi) (by positivity) (by positivity)

/-- A product that stays below the end of doubles is a number. -/
theorem isInf_mul {x y : Float} {a b : ℕ} {i j : ℤ} (hx : Normal x a i) (hy : Normal y b j) (hi : -52 ≤ i)
    (hj : -52 ≤ j) (hlt : (a : ℚ) * 2 ^ i * (b * 2 ^ j) < overflow) : (x * y).isInf = false := by
  have hone : (1 : ℚ) ≤ a * 2 ^ i * (b * 2 ^ j) :=
    one_le_mul_of_one_le_of_one_le (one_le_of_normal hx hi) (one_le_of_normal hy hj)
  obtain ⟨m, h⟩ := exists_rounds hone hlt
  obtain ⟨ha, hlong, hunpackx⟩ := hx
  obtain ⟨hb, -, hunpacky⟩ := hy
  have hfull : 2 ^ 52 ≤ a * b :=
    ((Nat.log2_eq_iff ha.ne').mp hlong).1.trans (Nat.le_mul_of_pos_right a hb)
  obtain ⟨hpos, -, hproduct⟩ := h.normal (x := x * y) (by
    change Float.Model.pack (UnpackedFloat.mul _ x.toModel.unpack y.toModel.unpack) = _
    rw [hunpackx, hunpacky, h.covers.mul h.canonical ha hb rfl hfull])
  change (x * y).toModel.unpack.isInf = false
  rw [hproduct]
  rfl

end Decimal.Magnitude

end QuantumKernels
