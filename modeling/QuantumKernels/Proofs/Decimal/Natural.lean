import QuantumKernels.Proofs.Json.Kept
import QuantumKernels.Proofs.Wire.Outcome

/-!
# Natural numbers in texts

A text is read as a natural number exactly if it is one: digits, behind a plus sign if there is one, with
nothing but blanks around them, and a value within the limit.
-/
namespace QuantumKernels

namespace Text

variable {before cs after : List Char}

theorem trimChars_append_left (h : ∀ c ∈ before, isBlank c) : trimChars (before ++ cs) = trimChars cs := by
  rw [trimChars, trimChars, List.dropWhile_append_of_pos h]

theorem trimChars_append_right (h : ∀ c ∈ after, isBlank c) : trimChars (cs ++ after) = trimChars cs := by
  have hafter : after.dropWhile isBlank = [] := List.dropWhile_eq_nil_iff.mpr h
  rw [trimChars, trimChars, List.dropWhile_append, hafter]
  split_ifs with hblank
  · rw [List.isEmpty_iff.mp hblank]
  · rw [List.reverse_append, List.dropWhile_append_of_pos fun c hc => h c (List.mem_reverse.mp hc)]

/-- Blanks on both sides are all that is dropped. -/
theorem exists_padding (cs : List Char) : ∃ before after, cs = before ++ trimChars cs ++ after ∧
    (∀ c ∈ before, isBlank c) ∧ ∀ c ∈ after, isBlank c := by
  let kept := cs.dropWhile isBlank
  refine ⟨cs.takeWhile isBlank, (kept.reverse.takeWhile isBlank).reverse, ?_,
    fun c hc => List.mem_takeWhile_imp hc, fun c hc => List.mem_takeWhile_imp (List.mem_reverse.mp hc)⟩
  have hkept : kept = trimChars cs ++ (kept.reverse.takeWhile isBlank).reverse := by
    rw [trimChars, ← List.reverse_append, List.takeWhile_append_dropWhile, List.reverse_reverse]
  rw [List.append_assoc, ← hkept, List.takeWhile_append_dropWhile]

theorem not_isBlank_of_isDigit {c : Char} (h : c.isDigit) : isBlank c = false := by
  have hbounds : 48 ≤ c.toNat ∧ c.toNat ≤ 57 := by
    simpa [Char.isDigit, UInt32.le_iff_toNat_le] using h
  have hall : ∀ n < 58, 48 ≤ n → isBlank (Char.ofNat n) = false := by decide
  have hc := hall c.toNat (by omega) hbounds.1
  rwa [Char.ofNat_toNat] at hc

end Text

namespace Decimal

variable {limit start n : ℕ} {overflow : Misread} {cs : List Char}

theorem digitValue?_ten (c : Char) :
    digitValue? 10 c = if c.isDigit then some (c.toNat - '0'.toNat) else none := by
  have hdigit : c.isDigit = true ↔ '0' ≤ c ∧ c ≤ '9' := by
    simp [Char.isDigit, Char.le_def]
  by_cases h : '0' ≤ c ∧ c ≤ '9'
  · have hlt : c.toNat - '0'.toNat < 10 := by
      have hle : c.toNat ≤ 57 := UInt32.le_iff_toNat_le.mp h.2
      have hzero : '0'.toNat = 48 := rfl
      omega
    simp only [digitValue?, if_pos h, if_pos hlt, if_pos (hdigit.mpr h)]
  · -- a letter stands for ten at least
    have hlarge : ¬ (if 'a' ≤ c ∧ c ≤ 'f' then c.toNat - 'a'.toNat + 10
        else if 'A' ≤ c ∧ c ≤ 'F' then c.toNat - 'A'.toNat + 10 else 10) < 10 := by
      split_ifs <;> omega
    simp only [digitValue?, if_neg h, if_neg hlarge, if_neg (mt hdigit.mp h)]

/-- Digits are read as their value, if it is within the limit. -/
theorem readDigits_eq_ok_iff (hstart : start ≤ limit) : readDigits 10 limit overflow start cs = .ok n ↔
    (∀ c ∈ cs, c.isDigit) ∧ digitsValue start cs = n ∧ n ≤ limit := by
  induction cs generalizing start with
  | nil =>
    rw [readDigits, Except.ok.injEq]
    constructor
    · rintro rfl
      exact ⟨by simp, rfl, hstart⟩
    · exact fun h => h.2.1
  | cons c cs ih =>
    rw [readDigits, digitValue?_ten, List.forall_mem_cons]
    by_cases hc : c.isDigit
    · rw [if_pos hc, and_iff_right hc]
      dsimp only
      split_ifs with hover
      · -- later digits do not make the value smaller
        refine iff_of_false (fun h => by cases h) fun h => ?_
        have hle := Json.le_digitsValue (10 * start + (c.toNat - '0'.toNat)) cs
        have hvalue : digitsValue (10 * start + (c.toNat - '0'.toNat)) cs = n := h.2.1
        omega
      · exact ih (not_lt.mp hover)
    · rw [if_neg hc]
      exact iff_of_false (fun h => by cases h) fun h => hc h.1.1

/-- The characters are a natural number: digits, behind a plus sign if there is one. -/
def IsNatural (cs : List Char) (n : ℕ) : Prop :=
  ∃ digits, (cs = digits ∨ cs = '+' :: digits) ∧ digits ≠ [] ∧ (∀ c ∈ digits, c.isDigit) ∧
    digitsValue 0 digits = n

theorem not_isDigit_plus : ¬ '+'.isDigit := by decide

theorem readNatural_eq_ok_iff : readNatural 10 limit cs = .ok n ↔ IsNatural cs n ∧ n ≤ limit := by
  have hread (digits : List Char) : readDigits 10 limit .tooLarge 0 digits = .ok n ↔ _ :=
    readDigits_eq_ok_iff (Nat.zero_le limit)
  unfold readNatural
  split
  · refine iff_of_false nofun ?_
    rintro ⟨⟨digits, rfl | hplus, hne, -⟩, -⟩
    · exact hne rfl
    · cases hplus
  · refine iff_of_false nofun ?_
    rintro ⟨⟨digits, rfl | hplus, hne, hdigits, -⟩, -⟩
    · exact not_isDigit_plus (hdigits '+' (by simp))
    · exact hne (List.cons.inj hplus).2.symm
  · rename_i rest hrest
    rw [hread]
    constructor
    · rintro ⟨hdigits, hvalue, hle⟩
      exact ⟨⟨rest, .inr rfl, fun h => hrest (by rw [h]), hdigits, hvalue⟩, hle⟩
    · rintro ⟨⟨digits, rfl | hplus, -, hdigits, hvalue⟩, hle⟩
      · exact absurd (hdigits '+' (by simp)) not_isDigit_plus
      · rw [(List.cons.inj hplus).2]
        exact ⟨hdigits, hvalue, hle⟩
  · rename_i hnil _ hplus
    rw [hread]
    constructor
    · rintro ⟨hdigits, hvalue, hle⟩
      exact ⟨⟨cs, .inl rfl, hnil, hdigits, hvalue⟩, hle⟩
    · rintro ⟨⟨digits, rfl | hcs, -, hdigits, hvalue⟩, hle⟩
      · exact ⟨hdigits, hvalue, hle⟩
      · exact absurd hcs (hplus digits)

/-- The text is a natural number with blanks around it. -/
def IsNaturalText (raw : String) (n : ℕ) : Prop :=
  ∃ before cs after, raw.toList = before ++ cs ++ after ∧ (∀ c ∈ before, Text.isBlank c) ∧
    (∀ c ∈ after, Text.isBlank c) ∧ IsNatural cs n

theorem IsNatural.not_isBlank (h : IsNatural cs n) : ∀ c ∈ cs, Text.isBlank c = false := by
  obtain ⟨digits, rfl | rfl, -, hdigits, -⟩ := h
  · exact fun c hc => Text.not_isBlank_of_isDigit (hdigits c hc)
  · rw [List.forall_mem_cons]
    exact ⟨by decide, fun c hc => Text.not_isBlank_of_isDigit (hdigits c hc)⟩

theorem isNaturalText_iff {raw : String} : IsNaturalText raw n ↔ IsNatural (Text.trimChars raw.toList) n := by
  constructor
  · rintro ⟨before, cs, after, hraw, hbefore, hafter, hcs⟩
    rw [hraw, Text.trimChars_append_right hafter, Text.trimChars_append_left hbefore,
      Wire.trimChars_of_notBlank hcs.not_isBlank]
    exact hcs
  · intro h
    obtain ⟨before, after, hraw, hbefore, hafter⟩ := Text.exists_padding raw.toList
    exact ⟨before, _, after, hraw, hbefore, hafter, h⟩

/-- A trimmed text is read as the natural number that it is. -/
theorem readNatural_trim_eq_ok_iff {raw : String} :
    readNatural 10 limit (Text.trim raw).toList = .ok n ↔ IsNaturalText raw n ∧ n ≤ limit := by
  rw [Text.trim, String.toList_ofList, readNatural_eq_ok_iff, isNaturalText_iff]

end Decimal

end QuantumKernels
