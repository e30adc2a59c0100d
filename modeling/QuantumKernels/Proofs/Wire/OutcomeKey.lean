import QuantumKernels.Proofs.Wire.Outcome
import Mathlib.Data.List.Basic
import Mathlib.Data.Nat.Bitwise

/-!
# Keys and outcomes

A key is read through the number that it stands for, however that number is spelled: slot by slot the
outcome has its bits, lowest first. Every outcome without a one beyond the slots of a key has the key of
the number with its bits, and comes back from it.
-/
namespace QuantumKernels

namespace Decimal

variable {limit : ℕ} {overflow : Misread}

theorem toNat_lt_of_digitValue? {c : Char} {d : ℕ} (h : digitValue? 16 c = some d) : c.toNat < 128 := by
  by_contra hlarge
  have hbeyond : ∀ last : Char, last.toNat < 128 → ¬ c ≤ last := fun last hlast hle =>
    hlarge (Nat.lt_of_le_of_lt (UInt32.le_iff_toNat_le.mp hle) hlast)
  have hnine := hbeyond '9' (by decide)
  have hlower := hbeyond 'f' (by decide)
  have hupper := hbeyond 'F' (by decide)
  simp [digitValue?, hnine, hlower, hupper] at h

/-- The value of a letter does not depend on its case. -/
theorem digitValue?_toLower (c : Char) : digitValue? 16 c.toLower = digitValue? 16 c := by
  by_cases hascii : c.toNat < 128
  · have hall : ∀ n < 128, digitValue? 16 (Char.ofNat n).toLower = digitValue? 16 (Char.ofNat n) := by decide +kernel
    have hc := hall c.toNat hascii
    rwa [Char.ofNat_toNat] at hc
  · have hsame : c.toLower = c := dif_neg fun hc => hascii (Nat.lt_of_le_of_lt hc.2 (by decide))
    rw [hsame]

/-- Digits are read alike in either case of letters. -/
theorem readDigits_map_toLower (start : ℕ) (digits : List Char) :
    readDigits 16 limit overflow start (digits.map Char.toLower) = readDigits 16 limit overflow start digits := by
  induction digits generalizing start with
  | nil => rfl
  | cons c digits ih =>
    rw [List.map_cons, readDigits, readDigits, digitValue?_toLower]
    simp only [ih]

theorem readDigits_zeros (zeros : ℕ) (digits : List Char) :
    readDigits 16 limit overflow 0 (List.replicate zeros '0' ++ digits) = readDigits 16 limit overflow 0 digits := by
  induction zeros with
  | zero => rfl
  | succ zeros ih =>
    rw [List.replicate_succ, List.cons_append, readDigits]
    exact (if_neg (Nat.not_lt_zero limit)).trans ih

end Decimal

namespace Wire

open Decimal

theorem plain_of_digitValue? {c : Char} {d : ℕ} (h : digitValue? 16 c = some d) : Plain c := by
  have hall : ∀ n < 128, (digitValue? 16 (Char.ofNat n)).isSome = true → Plain (Char.ofNat n) := by decide +kernel
  have hc := hall c.toNat (toNat_lt_of_digitValue? h)
  rw [Char.ofNat_toNat, h] at hc
  exact hc rfl

/-- A key of the number: a mark, then its digits in either case of letters, behind any zeros. -/
def Spells (key : String) (value : ℕ) : Prop :=
  ∃ mark digits zeros, (mark = 'x' ∨ mark = 'X') ∧ key.toList = '0' :: mark :: digits ∧
    digits.map Char.toLower = List.replicate zeros '0' ++ Nat.toDigits 16 value

theorem keyValue?_of_spells {key : String} {value : ℕ} (h : Spells key value) (hvalue : value < 2 ^ outcomeBits) :
    keyValue? key = some value := by
  obtain ⟨mark, digits, zeros, hmark, hkey, hdigits⟩ := h
  have hplain : ∀ c ∈ digits, Plain c := by
    intro c hc
    have hdigit : ∃ d < 16, c.toLower = Nat.digitChar d := by
      have hmem : c.toLower ∈ List.replicate zeros '0' ++ Nat.toDigits 16 value :=
        hdigits ▸ List.mem_map_of_mem hc
      rcases List.mem_append.mp hmem with hzero | hmem
      · exact ⟨0, by decide, List.eq_of_mem_replicate hzero⟩
      · exact exists_digit_of_mem_toDigits hmem
    obtain ⟨d, hd, hlower⟩ := hdigit
    exact plain_of_digitValue? (by rw [← digitValue?_toLower, hlower, digitValue?_digitChar hd])
  have hsome : digits ≠ [] := by
    rintro rfl
    exact Nat.toDigits_ne_nil (List.append_eq_nil_iff.mp hdigits.symm).2
  rw [keyValue?_eq_some_iff, keyDigits_of_marked hmark hkey hplain hsome, readNatural_of_plain hplain hsome,
    ← readDigits_map_toLower, hdigits, readDigits_zeros, readDigits_toDigits, if_neg (by omega)]

/-- The canonical key spells its number as well. -/
theorem spells_keyOf (value : ℕ) : Spells (keyOf value) value := by
  have hlower : ∀ d < 16, (Nat.digitChar d).toLower = Nat.digitChar d := by decide
  refine ⟨'x', Nat.toDigits 16 value, 0, .inl rfl, String.toList_ofList, ?_⟩
  refine (List.map_congr_left fun c hc => ?_).trans (List.map_id _)
  obtain ⟨d, hd, rfl⟩ := exists_digit_of_mem_toDigits hc
  exact hlower d hd

/-- Zeros and ones, with no one in a slot beyond those of a key. -/
def FitsKey (outcome : String) : Prop :=
  ∀ i c, outcome.toList[i]? = some c → c = '0' ∨ c = '1' ∧ i < outcomeBits

theorem exists_bitsValue?_iff (slot : ℕ) (bits : List Char) : (∃ value, bitsValue? slot bits = some value) ↔
    ∀ i c, bits[i]? = some c → c = '0' ∨ c = '1' ∧ slot + i < outcomeBits := by
  induction bits generalizing slot with
  | nil => simp [bitsValue?]
  | cons bit bits ih =>
    have hrest : ∀ f : ℕ → ℕ, (∃ value, (bitsValue? (slot + 1) bits).map f = some value) ↔
        ∀ i c, bits[i]? = some c → c = '0' ∨ c = '1' ∧ slot + (i + 1) < outcomeBits := by
      intro f
      simp only [← Nat.add_assoc, Nat.add_right_comm slot _ 1, ← ih]
      cases bitsValue? (slot + 1) bits <;> simp
    rw [← Nat.and_forall_add_one]
    simp only [List.getElem?_cons_zero, List.getElem?_cons_succ, Option.some.injEq, forall_eq', Nat.add_zero]
    rw [bitsValue?]
    split_ifs with hzero hone
    · rw [hrest, and_iff_right (.inl hzero)]
    · rw [hrest, and_iff_right (.inr hone)]
    · exact iff_of_false nofun fun h => h.1.elim hzero hone

theorem testBit_bitsValue? {slot value : ℕ} {bits : List Char} (h : bitsValue? slot bits = some value) (i : ℕ) :
    value.testBit i = decide (bits[i]? = some '1') := by
  induction bits generalizing slot value i with
  | nil =>
    cases h
    simp
  | cons bit bits ih =>
    rw [bitsValue?] at h
    split_ifs at h with hzero hone
    · obtain ⟨rest, hrest, rfl⟩ := Option.map_eq_some_iff.mp h
      cases i with
      | zero => simp [hzero]
      | succ i => simp [Nat.testBit_succ, ih hrest]
    · obtain ⟨rest, hrest, rfl⟩ := Option.map_eq_some_iff.mp h
      cases i with
      | zero => simp [hone]
      | succ i =>
        have hhalf : (2 * rest + 1) / 2 = rest := by omega
        simp [Nat.testBit_succ, hhalf, ih hrest]

theorem getElem?_bitChars (value width i : ℕ) :
    (bitChars value width)[i]? = if i < width then some (if value.testBit i then '1' else '0') else none := by
  rw [bitChars, List.getElem?_map]
  by_cases hi : i < width
  · rw [List.getElem?_range hi, if_pos hi]
    rfl
  · simp [hi]

theorem length_bitChars (value width : ℕ) : (bitChars value width).length = width := by
  rw [bitChars, List.length_map, List.length_range]

/-- Characters are the bits of a number if each of them is. -/
theorem eq_bitChars_iff {value : ℕ} {bits : List Char} : bits = bitChars value bits.length ↔
    ∀ i < bits.length, bits[i]? = some (if value.testBit i then '1' else '0') := by
  constructor
  · intro h i hi
    rw [h, getElem?_bitChars, if_pos hi]
  · intro h
    apply List.ext_getElem?
    intro i
    rw [getElem?_bitChars]
    by_cases hi : i < bits.length
    · rw [if_pos hi, h i hi]
    · rw [if_neg hi, List.getElem?_eq_none (not_lt.mp hi)]

theorem zero_or_one_of_mem_bitChars {value width : ℕ} {c : Char} (h : c ∈ bitChars value width) :
    c = '0' ∨ c = '1' := by
  obtain ⟨i, -, rfl⟩ := List.mem_map.mp h
  cases value.testBit i
  · exact .inl rfl
  · exact .inr rfl

/-- An outcome has the bits of the number of its key, and no more. -/
theorem bitChars_of_bitsValue? {value : ℕ} {bits : List Char} (h : bitsValue? 0 bits = some value) :
    value < 2 ^ outcomeBits ∧ value < 2 ^ bits.length ∧ bitChars value bits.length = bits := by
  have hbit := testBit_bitsValue? h
  have hchars := (exists_bitsValue?_iff 0 bits).mp ⟨value, h⟩
  refine ⟨?_, ?_, ?_⟩
  · refine Nat.lt_pow_two_of_testBit value fun i hi => ?_
    rw [hbit, decide_eq_false_iff_not]
    intro hone
    rcases hchars i '1' hone with hzero | ⟨-, hlt⟩
    · exact absurd hzero (by decide)
    · omega
  · refine Nat.lt_pow_two_of_testBit value fun i hi => ?_
    rw [hbit, List.getElem?_eq_none hi]
    rfl
  · refine (eq_bitChars_iff.mpr fun i hi => ?_).symm
    rw [hbit, List.getElem?_eq_getElem hi]
    rcases hchars i _ (List.getElem?_eq_getElem hi) with hzero | ⟨hone, -⟩
    · simp [hzero]
    · simp [hone]

theorem lt_of_testBit {value width i : ℕ} (h : value < 2 ^ width) (hi : value.testBit i = true) : i < width :=
  (Nat.pow_lt_pow_iff_right (by decide)).mp ((Nat.ge_two_pow_of_testBit hi).trans_lt h)

/-- The bits of a number in so many slots have its key. -/
theorem bitsValue?_bitChars {value width : ℕ} (hlimit : value < 2 ^ outcomeBits) (hwidth : value < 2 ^ width) :
    bitsValue? 0 (bitChars value width) = some value := by
  obtain ⟨value', hvalue'⟩ : ∃ value', bitsValue? 0 (bitChars value width) = some value' := by
    refine (exists_bitsValue?_iff 0 _).mpr fun i c hc => ?_
    rw [getElem?_bitChars] at hc
    split_ifs at hc with hi hbit
    · cases hc
      exact .inr ⟨rfl, by rw [Nat.zero_add]; exact lt_of_testBit hlimit hbit⟩
    · cases hc
      exact .inl rfl
  have hsame : value' = value := by
    apply Nat.eq_of_testBit_eq
    intro i
    rw [testBit_bitsValue? hvalue', getElem?_bitChars]
    cases hbit : value.testBit i with
    | false => by_cases hi : i < width <;> simp [hi]
    | true => simp [lt_of_testBit hwidth hbit]
  rw [hvalue', hsame]

theorem outcomeKey_of_fitsKey {outcome : String} (h : FitsKey outcome) : ∃ value, value < 2 ^ outcomeBits ∧
    value < 2 ^ outcome.length ∧ bitChars value outcome.length = outcome.toList ∧
    outcomeKey outcome = .ok (keyOf value) := by
  obtain ⟨value, hvalue⟩ := (exists_bitsValue?_iff 0 _).mpr fun i c hc => by
    rw [Nat.zero_add]
    exact h i c hc
  obtain ⟨hlimit, hwidth, hchars⟩ := bitChars_of_bitsValue? hvalue
  rw [String.length_toList] at hwidth hchars
  refine ⟨value, hlimit, hwidth, hchars, ?_⟩
  rw [outcomeKey, hvalue]
  rfl

theorem outcomeKey_of_not_fitsKey {outcome : String} (h : ¬ FitsKey outcome) :
    outcomeKey outcome = .error (.notBits outcome) := by
  rw [outcomeKey]
  cases hvalue : bitsValue? 0 outcome.toList with
  | none => rfl
  | some value =>
    refine absurd (fun i c hc => ?_) h
    have hchar := (exists_bitsValue?_iff 0 _).mp ⟨value, hvalue⟩ i c hc
    rwa [Nat.zero_add] at hchar

/-- Outcomes have keys exactly if they are zeros and ones with no one beyond the slots of a key, and
come back from them. Every key of a number, in whatever case of letters and behind whatever zeros, is
read in so many slots exactly if the number has no bit beyond them; then the outcome has the bits of the
number, lowest first, and its key is the canonical one. -/
theorem outcome_key_inverse :
    (∀ outcome : String,
      (FitsKey outcome → ∃ key, outcomeKey outcome = .ok key ∧ readOutcome key outcome.length = .ok outcome) ∧
      (¬ FitsKey outcome → outcomeKey outcome = .error (.notBits outcome))) ∧
    ∀ value < 2 ^ outcomeBits, Spells (keyOf value) value ∧ ∀ key, Spells key value → ∀ width,
      (outcomeBits ≤ width ∨ value < 2 ^ width → ∃ outcome, readOutcome key width = .ok outcome ∧
        outcome.length = width ∧
        (∀ i < width, outcome.toList[i]? = some (if i < outcomeBits ∧ value.testBit i then '1' else '0')) ∧
        outcomeKey outcome = .ok (keyOf value)) ∧
      (¬ (outcomeBits ≤ width ∨ value < 2 ^ width) → readOutcome key width = .error (.wideOutcome key width)) := by
  constructor
  · intro outcome
    refine ⟨fun hfits => ?_, outcomeKey_of_not_fitsKey⟩
    obtain ⟨value, hlimit, hwidth, hchars, hkey⟩ := outcomeKey_of_fitsKey hfits
    refine ⟨keyOf value, hkey, (readOutcome_keyOf hlimit).mpr ⟨hwidth, ?_⟩⟩
    rw [hchars, String.ofList_toList]
  · intro value hlimit
    refine ⟨spells_keyOf value, fun key hkey width => ?_⟩
    have hread := readOutcome_of_keyValue? (keyValue?_of_spells hkey hlimit) width
    have hroom : outcomeBits ≤ width ∨ value < 2 ^ width ↔ value < 2 ^ width :=
      or_iff_right_of_imp fun hwide => hlimit.trans_le (Nat.pow_le_pow_right (by decide) hwide)
    rw [hroom]
    constructor
    · intro hwidth
      refine ⟨_, hread.trans (if_pos hwidth), ?_, fun i hi => ?_, ?_⟩
      · rw [String.length_ofList, length_bitChars]
      · rw [String.toList_ofList, getElem?_bitChars, if_pos hi]
        have hslot : value.testBit i = true ↔ i < outcomeBits ∧ value.testBit i = true :=
          (and_iff_right_of_imp (lt_of_testBit hlimit)).symm
        simp only [← hslot]
      · rw [outcomeKey, String.toList_ofList, bitsValue?_bitChars hlimit hwidth]
        rfl
    · intro hwidth
      exact hread.trans (if_neg hwidth)

/-- A key with a capital behind zeros, in a slot more than its number needs and in one less. -/
theorem outcome_key_inverse_capital :
    FitsKey "0110" ∧ Spells "0X00aE" 174 ∧ (∃ key, outcomeKey "0110" = .ok key ∧ readOutcome key 4 = .ok "0110") ∧
      (∃ outcome, readOutcome "0X00aE" 9 = .ok outcome ∧ outcome.length = 9 ∧ outcomeKey outcome = .ok "0xae") ∧
      readOutcome "0X00aE" 7 = .error (.wideOutcome "0X00aE" 7) := by
  have hfits : FitsKey "0110" := fun i c hc => by
    have hchar := (exists_bitsValue?_iff 0 "0110".toList).mp ⟨6, by decide⟩ i c hc
    rwa [Nat.zero_add] at hchar
  have hspells : Spells "0X00aE" 174 := ⟨'X', ['0', '0', 'a', 'E'], 2, .inr rfl, rfl, by decide⟩
  obtain ⟨houtcomes, hkeys⟩ := outcome_key_inverse
  have hread := (hkeys 174 (by decide)).2 "0X00aE" hspells
  obtain ⟨outcome, hnine, hlength, -, hkey⟩ := (hread 9).1 (.inr (by decide))
  exact ⟨hfits, hspells, (houtcomes "0110").1 hfits, ⟨outcome, hnine, hlength, hkey⟩,
    (hread 7).2 (by decide)⟩

end Wire

end QuantumKernels
