import Mathlib
import QuantumKernels.Numeric.Power

/-!
# The bits of a double

A double that is a number has a sign, a significand and an exponent, which are in its bits and
determine them.
-/
namespace QuantumKernels.Binary64

open Float.Model Float.Model.UnpackedFloat

/-- Sign, exponent and mantissa are all the bits there are. -/
theorem append_unpacked (b : BitVec Format.binary64.numBits) :
    unpackSign b ++ unpackExponent b ++ unpackMantissa b = b := by
  change BitVec.extractLsb' 63 1 b ++ BitVec.extractLsb' 52 11 b ++ BitVec.extractLsb' 0 52 b = b
  rw [BitVec.extractLsb'_append_extractLsb'_eq_extractLsb' (by rfl),
    BitVec.extractLsb'_append_extractLsb'_eq_extractLsb' (by rfl)]
  exact BitVec.extractLsb'_eq_self

theorem toBitVec_ofBitVec (b : BitVec 1) : (Sign.ofBitVec b).toBitVec = b := by
  revert b
  decide

theorem eq_packedInfinity {b : BitVec Format.binary64.numBits} {s : Sign}
    (h : UnpackedFloat.unpack Format.binary64 b = .infinity s) :
    b = packedInfinity Format.binary64 s := by
  simp only [UnpackedFloat.unpack] at h
  split_ifs at h with hexponent hmantissa
  cases h
  have hwhole := append_unpacked b
  rw [hexponent, hmantissa] at hwhole
  rw [packedInfinity, packComponents, toBitVec_ofBitVec]
  exact hwhole.symm

theorem eq_packedZero {b : BitVec Format.binary64.numBits} {s : Sign}
    (h : UnpackedFloat.unpack Format.binary64 b = .zero s) : b = packedZero Format.binary64 s := by
  simp only [UnpackedFloat.unpack] at h
  split_ifs at h with _ _ hexponent hmantissa
  cases h
  have hwhole := append_unpacked b
  rw [hexponent, hmantissa] at hwhole
  rw [packedZero, packComponents, toBitVec_ofBitVec]
  exact hwhole.symm

theorem eq_of_toBits {x y : Float} (h : x.toBits.toBitVec = y.toBits.toBitVec) : x = y := by
  obtain ⟨⟨⟨b⟩, hb⟩⟩ := x
  obtain ⟨⟨⟨c⟩, hc⟩⟩ := y
  have hbits : b = c := h
  subst hbits
  rfl

/-- There is one infinity of each sign. -/
theorem eq_of_unpack_eq_infinity {x y : Float} {s : Sign} (hx : x.toModel.unpack = .infinity s)
    (hy : y.toModel.unpack = .infinity s) : x = y :=
  eq_of_toBits ((eq_packedInfinity hx).trans (eq_packedInfinity hy).symm)

/-- There is one zero of each sign. -/
theorem eq_of_unpack_eq_zero {x y : Float} {s : Sign} (hx : x.toModel.unpack = .zero s)
    (hy : y.toModel.unpack = .zero s) : x = y :=
  eq_of_toBits ((eq_packedZero hx).trans (eq_packedZero hy).symm)

/-- The sign of a double that is a number or infinite. -/
def HasSign (s : Sign) : UnpackedFloat → Prop
  | .infinity t | .zero t | .finite t _ _ _ => t = s
  | .notANumber => False

theorem sign_of_unpack {b : BitVec Format.binary64.numBits} {s : Sign}
    (h : HasSign s (UnpackedFloat.unpack Format.binary64 b)) : s = Sign.ofBitVec (unpackSign b) := by
  simp only [UnpackedFloat.unpack] at h
  split_ifs at h
  · exact h.symm
  · exact h.elim
  · exact h.symm
  · exact h.symm
  · exact h.symm

/-- Packing keeps the sign, however large the number is. -/
theorem hasSign_unpack_pack {u : UnpackedFloat} {s : Sign} (h : HasSign s u) :
    HasSign s (UnpackedFloat.unpack Format.binary64 (UnpackedFloat.pack Format.binary64 u)) := by
  have hcomponents (exponent : BitVec 11) (mantissa : BitVec 52)
      (hnumber : exponent ≠ -1#11 ∨ mantissa = 0#52) : HasSign s (UnpackedFloat.unpack Format.binary64
        (packComponents Format.binary64 s exponent mantissa)) := by
    simp only [UnpackedFloat.unpack, unpackExponent_packComponents, unpackMantissa_packComponents,
      unpackSign_packComponents, Sign.ofBitVec_toBitVec]
    split_ifs with hmax hzero
    · rfl
    · exact absurd (hnumber.resolve_left (not_not.mpr hmax)) hzero
    all_goals rfl
  cases u with
  | notANumber => exact h.elim
  | infinity t =>
    cases h
    exact hcomponents _ _ (.inr rfl)
  | zero t =>
    cases h
    exact hcomponents _ _ (.inr rfl)
  | finite t m e hm =>
    cases h
    simp only [UnpackedFloat.pack]
    split_ifs with hlarge hfull
    · exact hcomponents _ _ (.inr rfl)
    · refine hcomponents _ _ (.inl fun heq => hlarge ?_)
      have hmax : (e + Format.binary64.exponentBias + (52 : ℕ)).toNat % 2048 = 2047 :=
        congrArg BitVec.toNat heq
      change 2048 ≤ (e + Format.binary64.exponentBias + (52 : ℕ)).toNat + 1
      omega
    · exact hcomponents _ _ (.inl (by decide))

/-- The fields of a finite double that is not zero. -/
structure Fields (b : BitVec Format.binary64.numBits) (s : Sign) (m : ℕ) (e : ℤ) : Prop where
  sign : s = Sign.ofBitVec (unpackSign b)
  lt : (unpackExponent b).toNat < 2047
  parts : (unpackExponent b).toNat = 0 ∧ m = (unpackMantissa b).toNat ∧ e = -1074 ∨
    0 < (unpackExponent b).toNat ∧ m = 2 ^ 52 + (unpackMantissa b).toNat ∧
      e = (unpackExponent b).toNat - 1075

theorem toNat_one_append (b : BitVec 52) : (1#1 ++ b).toNat = 2 ^ 52 + b.toNat := by
  rw [BitVec.toNat_append, ← Nat.shiftLeft_add_eq_or_of_lt b.isLt]
  rfl

theorem fields_of_unpack {b : BitVec Format.binary64.numBits} {s : Sign} {m : ℕ} {e : ℤ} {hm : 0 < m}
    (h : UnpackedFloat.unpack Format.binary64 b = .finite s m e hm) : Fields b s m e := by
  have hsize : (unpackExponent b).toNat < 2048 := (unpackExponent b).isLt
  simp only [UnpackedFloat.unpack] at h
  split_ifs at h with hmax _ hmin
  · cases h
    have hzero : (unpackExponent b).toNat = 0 := congrArg BitVec.toNat hmin
    refine ⟨rfl, by omega, .inl ⟨hzero, rfl, ?_⟩⟩
    rw [hzero]
    rfl
  · cases h
    have hlt : (unpackExponent b).toNat ≠ 2047 := fun heq => hmax (BitVec.eq_of_toNat_eq heq)
    have hpos : (unpackExponent b).toNat ≠ 0 := fun heq => hmin (BitVec.eq_of_toNat_eq heq)
    exact ⟨rfl, by omega, .inr ⟨by omega, toNat_one_append _, rfl⟩⟩

theorem Fields.pack {b : BitVec Format.binary64.numBits} {s : Sign} {m : ℕ} {e : ℤ}
    (h : Fields b s m e) (hm : 0 < m) : UnpackedFloat.pack Format.binary64 (.finite s m e hm) = b := by
  have hlt := h.lt
  have hsize : (unpackMantissa b).toNat < 2 ^ 52 := (unpackMantissa b).isLt
  have hwhole (exponent : BitVec 11) (mantissa : BitVec 52) (hexponent : exponent = unpackExponent b)
      (hmantissa : mantissa = unpackMantissa b) :
      packComponents Format.binary64 s exponent mantissa = b := by
    rw [packComponents, h.sign, toBitVec_ofBitVec, hexponent, hmantissa]
    exact append_unpacked b
  simp only [UnpackedFloat.pack]
  rcases h.parts with ⟨hzero, hsig, hexp⟩ | ⟨hpos, hsig, hexp⟩
  · have hlog : m.log2 < 52 := (Nat.log2_lt hm.ne').mpr (hsig ▸ hsize)
    have hbiased : (e + Format.binary64.exponentBias + (52 : ℕ)).toNat = 1 := by
      rw [hexp]
      rfl
    have hshort : ¬ m.log2 + 1 = Format.binary64.mantissaBits := by
      change ¬ m.log2 + 1 = 53
      omega
    rw [hbiased, if_neg (by decide), if_neg hshort]
    refine hwhole _ _ (BitVec.eq_of_toNat_eq hzero.symm) ?_
    rw [hsig, BitVec.ofNat_toNat, BitVec.setWidth_eq]
  · have hlog : m.log2 = 52 := (Nat.log2_eq_iff hm.ne').mpr (by omega)
    have hbiased : (e + Format.binary64.exponentBias + (52 : ℕ)).toNat = (unpackExponent b).toNat := by
      have hbias : Format.binary64.exponentBias = 1023 := rfl
      omega
    have hfull : m.log2 + 1 = Format.binary64.mantissaBits := by rw [hlog]; rfl
    rw [hbiased, if_neg (by simp only [Format.binary64]; omega), if_pos hfull]
    refine hwhole _ _ ?_ ?_
    · rw [BitVec.ofNat_toNat, BitVec.setWidth_eq]
    · apply BitVec.eq_of_toNat_eq
      rw [BitVec.toNat_ofNat, hsig]
      omega

/-- A double is packed from its parts. -/
theorem pack_unpack {x : Float} {s : Sign} {m : ℕ} {e : ℤ} {hm : 0 < m}
    (h : x.toModel.unpack = .finite s m e hm) : Float.Model.pack (.finite s m e hm) = x.toModel := by
  obtain ⟨⟨bits, hvalid⟩⟩ := x
  rw [Float.Model.pack, Float.Model.mk.injEq]
  exact congrArg UInt64.ofBitVec ((fields_of_unpack h).pack hm)

/-- The fields determine the double. -/
theorem Fields.unpack {b : BitVec Format.binary64.numBits} {s : Sign} {m : ℕ} {e : ℤ} (h : Fields b s m e)
    (hm : 0 < m) :
    UnpackedFloat.unpack Format.binary64 b = .finite s m e hm := by
  have hlt := h.lt
  have hmax : unpackExponent b ≠ -1#11 := by
    intro heq
    rw [heq] at hlt
    exact absurd hlt (by decide)
  simp only [UnpackedFloat.unpack]
  rw [if_neg hmax]
  rcases h.parts with ⟨hzero, hsig, hexp⟩ | ⟨hpos, hsig, hexp⟩
  · have hmin : unpackExponent b = 0#11 := BitVec.eq_of_toNat_eq hzero
    have hmantissa : unpackMantissa b ≠ 0#52 := by
      intro heq
      rw [hsig, heq] at hm
      exact absurd hm (lt_irrefl 0)
    rw [if_pos hmin, dif_neg hmantissa, UnpackedFloat.finite.injEq]
    refine ⟨h.sign.symm, hsig.symm, ?_⟩
    rw [hzero, hexp]
    rfl
  · have hmin : unpackExponent b ≠ 0#11 := by
      intro heq
      rw [heq] at hpos
      exact absurd hpos (lt_irrefl 0)
    rw [if_neg hmin, UnpackedFloat.finite.injEq]
    exact ⟨h.sign.symm, (toNat_one_append _).trans hsig.symm, hexp.symm⟩

/-- The same magnitude with another sign. -/
theorem Fields.withSign {b : BitVec Format.binary64.numBits} {s : Sign} {m : ℕ} {e : ℤ} (h : Fields b s m e)
    (t : Sign) :
    Fields (packComponents Format.binary64 t (unpackExponent b) (unpackMantissa b)) t m e where
  sign := by rw [unpackSign_packComponents, Sign.ofBitVec_toBitVec]
  lt := by
    rw [unpackExponent_packComponents]
    exact h.lt
  parts := by
    rw [unpackExponent_packComponents, unpackMantissa_packComponents]
    exact h.parts

/-- The double of the same magnitude and the other sign. -/
theorem neg_eq_of_pack {x y : Float} {m : ℕ} {e : ℤ} {hm : 0 < m} (hx : x.toModel.unpack = .finite .negative m e hm)
    (hy : y.toModel = Float.Model.pack (.finite .positive m e hm)) : -y = x := by
  have hfields := (fields_of_unpack hx).withSign .positive
  have hunpack : y.toModel.unpack = .finite .positive m e hm := by
    rw [hy]
    change UnpackedFloat.unpack Format.binary64 (UnpackedFloat.pack Format.binary64 _) = _
    rw [hfields.pack hm]
    exact hfields.unpack hm
  have hneg : (-y).toModel = Float.Model.pack y.toModel.unpack.neg := rfl
  rw [hunpack] at hneg
  exact congrArg Float.ofModel (hneg.trans (pack_unpack hx))

theorem toNat_unpackExponent (bits : UInt64) :
    (@unpackExponent Format.binary64 bits.toBitVec).toNat = (bits >>> 52 &&& 0x7ff).toNat := by
  rw [UInt64.toNat_and, UInt64.toNat_shiftRight]
  change (BitVec.extractLsb' 52 11 bits.toBitVec).toNat = bits.toNat >>> 52 &&& (2 ^ 11 - 1)
  rw [BitVec.extractLsb'_toNat, Nat.and_two_pow_sub_one_eq_mod]
  rfl

theorem toNat_unpackMantissa (bits : UInt64) :
    (@unpackMantissa Format.binary64 bits.toBitVec).toNat = (bits &&& 0xfffffffffffff).toNat := by
  rw [UInt64.toNat_and]
  change (BitVec.extractLsb' 0 52 bits.toBitVec).toNat = bits.toNat &&& (2 ^ 52 - 1)
  rw [BitVec.extractLsb'_toNat, Nat.and_two_pow_sub_one_eq_mod]
  rfl

theorem toNat_unpackSign (bits : UInt64) :
    (@unpackSign Format.binary64 bits.toBitVec).toNat = (bits >>> 63).toNat := by
  rw [UInt64.toNat_shiftRight]
  change (BitVec.extractLsb' 63 1 bits.toBitVec).toNat = bits.toNat >>> 63
  have hsize : bits.toNat < 2 ^ 64 := bits.toNat_lt
  rw [BitVec.extractLsb'_toNat, Nat.mod_eq_of_lt]
  · rfl
  · change bits.toNat >>> 63 < 2 ^ 1
    rw [Nat.shiftRight_eq_div_pow]
    omega

end QuantumKernels.Binary64
