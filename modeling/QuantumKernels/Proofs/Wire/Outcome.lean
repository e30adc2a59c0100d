import QuantumKernels.Wire.Outcome
import QuantumKernels.Proofs.Outcome
import Mathlib.Data.Nat.Notation

/-!
# Outcome keys

The key of a number is written in hexadecimal digits, without leading zeros, behind a mark. It is read
as an outcome in so many slots exactly if the number needs no more bits than that.
-/
namespace QuantumKernels

namespace Decimal

variable {base limit : ℕ} {overflow : Misread}

theorem readDigits_append (start : ℕ) (front rest : List Char) :
    readDigits base limit overflow start (front ++ rest) =
      readDigits base limit overflow start front >>= fun value => readDigits base limit overflow value rest := by
  induction front generalizing start with
  | nil => rfl
  | cons c front ih =>
    rw [List.cons_append, readDigits, readDigits]
    cases digitValue? base c with
    | none => rfl
    | some d =>
      dsimp only
      split
      · rfl
      · exact ih (base * start + d)

theorem readDigits_le {start value : ℕ} {digits : List Char} (hstart : start ≤ limit)
    (h : readDigits base limit overflow start digits = .ok value) : value ≤ limit := by
  induction digits generalizing start with
  | nil =>
    cases h
    exact hstart
  | cons c digits ih =>
    rw [readDigits] at h
    split at h
    · cases h
    · split at h
      · cases h
      · exact ih (by omega) h

theorem readNatural_le {value : ℕ} {digits : List Char} (h : readNatural base limit digits = .ok value) :
    value ≤ limit := by
  unfold readNatural at h
  split at h
  · cases h
  · cases h
  · exact readDigits_le (Nat.zero_le limit) h
  · exact readDigits_le (Nat.zero_le limit) h

theorem digitValue?_digitChar {d : ℕ} (h : d < 16) : digitValue? 16 d.digitChar = some d := by
  have hall : ∀ d < 16, digitValue? 16 (Nat.digitChar d) = some d := by decide
  exact hall d h

theorem readDigits_digitChar {d : ℕ} (h : d < 16) (start : ℕ) :
    readDigits 16 limit overflow start [d.digitChar] =
      if limit < 16 * start + d then .error overflow else .ok (16 * start + d) := by
  rw [readDigits, digitValue?_digitChar h]
  rfl

/-- A number beyond the limit runs over with its last digit at the latest. -/
theorem readDigits_toDigits (n : ℕ) : readDigits 16 limit overflow 0 (Nat.toDigits 16 n) =
    if limit < n then .error overflow else .ok n := by
  induction n using Nat.strongRecOn with
  | _ n ih =>
    rw [Nat.toDigits_eq_if (by decide)]
    split
    · rename_i hdigit
      rw [readDigits_digitChar hdigit, Nat.mul_zero, Nat.zero_add]
    · rename_i hmore
      have hlast : n % 16 < 16 := Nat.mod_lt n (by decide)
      have hparts : 16 * (n / 16) + n % 16 = n := Nat.div_add_mod n 16
      rw [readDigits_append, ih (n / 16) (by omega)]
      by_cases hfront : limit < n / 16
      · rw [if_pos hfront, if_pos (by omega)]
        rfl
      · rw [if_neg hfront]
        change readDigits 16 limit overflow (n / 16) [(n % 16).digitChar] = _
        rw [readDigits_digitChar hlast, hparts]

theorem exists_digit_of_mem_toDigits {n : ℕ} {c : Char} (h : c ∈ Nat.toDigits 16 n) :
    ∃ d < 16, c = Nat.digitChar d := by
  induction n using Nat.strongRecOn with
  | _ n ih =>
    rw [Nat.toDigits_eq_if (by decide)] at h
    split at h
    · exact ⟨n, ‹_›, List.mem_singleton.mp h⟩
    · rcases List.mem_append.mp h with hfront | hlast
      · exact ih (n / 16) (by omega) hfront
      · exact ⟨n % 16, Nat.mod_lt n (by decide), List.mem_singleton.mp hlast⟩

end Decimal

namespace Wire

open Decimal

/-- The key of a number. -/
def keyOf (value : ℕ) : String := String.ofList ('0' :: 'x' :: Nat.toDigits 16 value)

/-- No character of a mark, a sign or a margin. -/
def Plain (c : Char) : Prop := c ≠ 'x' ∧ c ≠ 'X' ∧ c ≠ '+' ∧ Text.isBlank c = false

instance (c : Char) : Decidable (Plain c) :=
  inferInstanceAs (Decidable (c ≠ 'x' ∧ c ≠ 'X' ∧ c ≠ '+' ∧ Text.isBlank c = false))

theorem plain_of_mem_toDigits {n : ℕ} {c : Char} (h : c ∈ Nat.toDigits 16 n) : Plain c := by
  have hall : ∀ d < 16, Plain (Nat.digitChar d) := by decide
  obtain ⟨d, hd, rfl⟩ := exists_digit_of_mem_toDigits h
  exact hall d hd

theorem dropPairs_of_notMem {a b : Char} {s : List Char} (h : b ∉ s) : dropPairs a b s = s := by
  unfold dropPairs
  split
  · rename_i x y rest
    rw [if_neg]
    rintro ⟨-, rfl⟩
    exact h (by simp)
  · rfl

theorem trimChars_of_notBlank {s : List Char} (h : ∀ c ∈ s, Text.isBlank c = false) : Text.trimChars s = s := by
  have hdrop : ∀ l : List Char, (∀ c ∈ l, Text.isBlank c = false) → l.dropWhile Text.isBlank = l := by
    intro l hl
    cases l with
    | nil => rfl
    | cons c l => rw [List.dropWhile_cons_of_neg (by simp [hl c (by simp)])]
  rw [Text.trimChars, hdrop s h, hdrop s.reverse fun c hc => h c (List.mem_reverse.mp hc), List.reverse_reverse]

/-- Nothing but the mark is dropped of a key with digits behind it. -/
theorem keyDigits_of_marked {key : String} {mark : Char} {digits : List Char} (hmark : mark = 'x' ∨ mark = 'X')
    (hkey : key.toList = '0' :: mark :: digits) (hplain : ∀ c ∈ digits, Plain c) (hsome : digits ≠ []) :
    keyDigits key = digits := by
  have htrim : Text.trimChars key.toList = '0' :: mark :: digits := by
    rw [hkey]
    refine trimChars_of_notBlank fun c hc => ?_
    simp only [List.mem_cons] at hc
    rcases hc with rfl | rfl | hc
    · decide
    · rcases hmark with rfl | rfl <;> decide
    · exact (hplain c hc).2.2.2
  have hlower : dropPairs '0' 'x' digits = digits := dropPairs_of_notMem fun hc => (hplain _ hc).1 rfl
  have hupper : dropPairs '0' 'X' digits = digits := dropPairs_of_notMem fun hc => (hplain _ hc).2.1 rfl
  have hdrop : dropPairs '0' 'X' (dropPairs '0' 'x' ('0' :: mark :: digits)) = digits := by
    rcases hmark with rfl | rfl
    · have hdrop : dropPairs '0' 'x' ('0' :: 'x' :: digits) = dropPairs '0' 'x' digits := if_pos ⟨rfl, rfl⟩
      rw [hdrop, hlower, hupper]
    · have hkeep : dropPairs '0' 'x' ('0' :: 'X' :: digits) = '0' :: 'X' :: digits := if_neg (by decide)
      have hdrop : dropPairs '0' 'X' ('0' :: 'X' :: digits) = dropPairs '0' 'X' digits := if_pos ⟨rfl, rfl⟩
      rw [hkeep, hdrop, hupper]
  rw [keyDigits, htrim, hdrop]
  simp [hsome]

theorem keyDigits_keyOf (value : ℕ) : keyDigits (keyOf value) = Nat.toDigits 16 value :=
  keyDigits_of_marked (.inl rfl) String.toList_ofList (fun _ => plain_of_mem_toDigits) Nat.toDigits_ne_nil

theorem readNatural_of_plain {base limit : ℕ} {digits : List Char} (hplain : ∀ c ∈ digits, Plain c)
    (hsome : digits ≠ []) : readNatural base limit digits = readDigits base limit .tooLarge 0 digits := by
  unfold readNatural
  split
  · exact absurd rfl hsome
  · exact absurd rfl (hplain '+' (by simp)).2.2.1
  · exact absurd rfl (hplain '+' (by simp)).2.2.1
  · rfl

theorem readNatural_toDigits (limit n : ℕ) :
    readNatural 16 limit (Nat.toDigits 16 n) = if limit < n then .error .tooLarge else .ok n := by
  rw [readNatural_of_plain (fun _ => plain_of_mem_toDigits) Nat.toDigits_ne_nil, readDigits_toDigits]

theorem keyOf_inj {a b : ℕ} (h : keyOf a = keyOf b) : a = b := by
  have hread : readNatural 16 (max a b) (keyDigits (keyOf a)) = readNatural 16 (max a b) (keyDigits (keyOf b)) := by
    rw [h]
  rw [keyDigits_keyOf, keyDigits_keyOf, readNatural_toDigits, readNatural_toDigits, if_neg (by omega),
    if_neg (by omega)] at hread
  exact Except.ok.inj hread

/-- The number that a key stands for. -/
def keyValue? (key : String) : Option ℕ := (readNatural 16 (2 ^ outcomeBits - 1) (keyDigits key)).toOption

theorem keyValue?_eq_some_iff {key : String} {value : ℕ} : keyValue? key = some value ↔
    readNatural 16 (2 ^ outcomeBits - 1) (keyDigits key) = .ok value := by
  rw [keyValue?]
  cases readNatural 16 (2 ^ outcomeBits - 1) (keyDigits key) <;> simp [Except.toOption]

theorem keyValue?_lt {key : String} {value : ℕ} (h : keyValue? key = some value) : value < 2 ^ outcomeBits := by
  have hle := readNatural_le (keyValue?_eq_some_iff.mp h)
  have hpos : 0 < 2 ^ outcomeBits := Nat.two_pow_pos outcomeBits
  omega

/-- A key is read in so many slots exactly if the number that it stands for has no bit beyond them. -/
theorem readOutcome_of_keyValue? {key : String} {value : ℕ} (h : keyValue? key = some value) (width : ℕ) :
    readOutcome key width = if value < 2 ^ width then .ok (String.ofList (bitChars value width))
      else .error (.wideOutcome key width) := by
  have hlimit := keyValue?_lt h
  have hfits : ¬ (width < outcomeBits ∧ value >>> width ≠ 0) ↔ value < 2 ^ width := by
    rw [Nat.shiftRight_eq_div_pow, Ne, Nat.div_eq_zero_iff_lt (Nat.two_pow_pos width), not_and_not_right]
    refine ⟨fun hlt => ?_, fun hlt _ => hlt⟩
    by_contra hmany
    have hpow : 2 ^ outcomeBits ≤ 2 ^ width :=
      Nat.pow_le_pow_right (by decide) (Nat.not_lt.mp fun hwidth => hmany (hlt hwidth))
    omega
  rw [readOutcome, keyValue?_eq_some_iff.mp h]
  dsimp only
  by_cases hlt : value < 2 ^ width
  · rw [if_neg (hfits.mpr hlt), if_pos hlt]
  · rw [if_pos (not_not.mp (mt hfits.mp hlt)), if_neg hlt]

theorem readOutcome_eq_ok_iff {key outcome : String} {width : ℕ} : readOutcome key width = .ok outcome ↔
    ∃ value, keyValue? key = some value ∧ value < 2 ^ width ∧ outcome = String.ofList (bitChars value width) := by
  cases hvalue : keyValue? key with
  | some value =>
    rw [readOutcome_of_keyValue? hvalue]
    split_ifs with hlt
    · simp [hlt, eq_comm]
    · simp [hlt]
  | none =>
    refine iff_of_false (fun hread => ?_) (by simp)
    rw [readOutcome] at hread
    split at hread
    · cases hread
    · rename_i value hdigits
      rw [keyValue?_eq_some_iff.mpr hdigits] at hvalue
      cases hvalue

theorem keyValue?_keyOf {value : ℕ} (h : value < 2 ^ outcomeBits) : keyValue? (keyOf value) = some value := by
  rw [keyValue?_eq_some_iff, keyDigits_keyOf, readNatural_toDigits, if_neg (by omega)]

theorem readOutcome_keyOf {value width : ℕ} {bits : String} (h : value < 2 ^ outcomeBits) :
    readOutcome (keyOf value) width = .ok bits ↔
      value < 2 ^ width ∧ bits = String.ofList (bitChars value width) := by
  rw [readOutcome_eq_ok_iff, keyValue?_keyOf h]
  simp

end Wire

end QuantumKernels
