import QuantumKernels.Json.Token
import Mathlib.Data.List.TakeWhile

/-!
# Numbers in written documents

A text that is read as a number consists of numeral characters and starts with a digit or a
minus sign. Integers of a machine word read back as written. That a finite real does so too
is a property of the real, `ReadsBack`: long numerals are read by scaling.
-/
namespace QuantumKernels.Json

open Decimal (Numeral digitsValue)

theorem isNumeralChar_of_isDigit {c : Char} (h : c.isDigit) : isNumeralChar c := by
  simp [isNumeralChar, h]

theorem isDigit_of_mem_takeWhile {cs : List Char} {c : Char} (h : c ∈ cs.takeWhile Char.isDigit) :
    c.isDigit := List.mem_takeWhile_imp h

theorem takeSign_eq (cs : List Char) : ∃ sign, cs = sign ++ (Decimal.takeSign cs).2 ∧
    ∀ c ∈ sign, isNumeralChar c := by
  unfold Decimal.takeSign
  split
  · exact ⟨['+'], rfl, by simp [isNumeralChar]⟩
  · exact ⟨['-'], rfl, by simp [isNumeralChar]⟩
  · exact ⟨[], rfl, by simp⟩

/-- An exponent is made of numeral characters. -/
theorem readExponent_eq_some {cs rest : List Char} {e : ℤ}
    (h : Decimal.readExponent cs = some (e, rest)) :
    ∃ front, cs = front ++ rest ∧ ∀ c ∈ front, isNumeralChar c := by
  cases cs with
  | nil => simp [Decimal.readExponent] at h
  | cons mark tail =>
    obtain ⟨sign, htail, hsign⟩ := takeSign_eq tail
    simp only [Decimal.readExponent] at h
    split at h
    · rename_i hmark
      simp only [Option.some.injEq, Prod.mk.injEq] at h
      refine ⟨mark :: (sign ++ (Decimal.takeSign tail).2.takeWhile Char.isDigit), ?_, ?_⟩
      · rw [← h.2, List.cons_append, List.append_assoc, List.takeWhile_append_dropWhile, ← htail]
      · intro c hc
        rcases List.mem_cons.mp hc with rfl | hc
        · rcases hmark.1 with rfl | rfl <;> decide
        · rcases List.mem_append.mp hc with hc | hc
          · exact hsign c hc
          · exact isNumeralChar_of_isDigit (isDigit_of_mem_takeWhile hc)
    · simp at h

theorem readPower_eq (whole : List Char) (fraction : Option (List Char)) (cs : List Char) :
    (Decimal.readPower whole fraction cs).1.whole = whole ∧
    ∃ front, cs = front ++ (Decimal.readPower whole fraction cs).2 ∧
      ∀ c ∈ front, isNumeralChar c := by
  unfold Decimal.readPower
  split
  · rename_i h
    exact ⟨rfl, readExponent_eq_some h⟩
  · exact ⟨rfl, [], rfl, by simp⟩

/-- A numeral starts with its whole part and has numeral characters only. -/
theorem readFront_eq_some {cs rest : List Char} {n : Numeral}
    (h : Numeral.readFront cs = some (n, rest)) :
    n.whole = cs.takeWhile Char.isDigit ∧
      ∃ front, cs = front ++ rest ∧ ∀ c ∈ front, isNumeralChar c := by
  have hparts : cs.takeWhile Char.isDigit ++ cs.dropWhile Char.isDigit = cs :=
    List.takeWhile_append_dropWhile
  have hwhole : ∀ c ∈ cs.takeWhile Char.isDigit, isNumeralChar c :=
    fun c hc => isNumeralChar_of_isDigit (isDigit_of_mem_takeWhile hc)
  unfold Numeral.readFront at h
  dsimp only at h
  split at h
  · rename_i tail htail
    split_ifs at h
    obtain ⟨hw, front, hfront, hnum⟩ := readPower_eq (cs.takeWhile Char.isDigit)
      (some (tail.takeWhile Char.isDigit)) (tail.dropWhile Char.isDigit)
    rw [Option.some.inj h] at hw hfront
    refine ⟨hw, cs.takeWhile Char.isDigit ++ ('.' :: (tail.takeWhile Char.isDigit ++ front)), ?_, ?_⟩
    · rw [List.append_assoc, List.cons_append, List.append_assoc, ← hfront,
        List.takeWhile_append_dropWhile, ← htail, hparts]
    · intro c hc
      simp only [List.mem_append, List.mem_cons] at hc
      rcases hc with hc | rfl | hc | hc
      · exact hwhole c hc
      · decide
      · exact isNumeralChar_of_isDigit (isDigit_of_mem_takeWhile hc)
      · exact hnum c hc
  · split_ifs at h
    obtain ⟨hw, front, hfront, hnum⟩ := readPower_eq (cs.takeWhile Char.isDigit) none
      (cs.dropWhile Char.isDigit)
    rw [Option.some.inj h] at hw hfront
    refine ⟨hw, cs.takeWhile Char.isDigit ++ front, ?_, ?_⟩
    · rw [List.append_assoc, ← hfront, hparts]
    · intro c hc
      rcases List.mem_append.mp hc with hc | hc
      · exact hwhole c hc
      · exact hnum c hc

theorem isStrict_whole {n : Numeral} (h : isStrict n) : n.whole ≠ [] := by
  intro hn
  simp [isStrict, hn] at h

/-- What starts a number. -/
def startsNumeral (c : Char) : Bool := c == '-' || c.isDigit

/-- A text that is a number. -/
structure IsNumeral (cs : List Char) : Prop where
  chars : ∀ c ∈ cs, isNumeralChar c
  starts : ∃ c rest, cs = c :: rest ∧ startsNumeral c

theorem isNumeral_of_read {cs : List Char} {n : Numeral} (h : Numeral.read cs = some n)
    (hs : isStrict n) : (∀ c ∈ cs, isNumeralChar c) ∧ ∃ c rest, cs = c :: rest ∧ c.isDigit := by
  have hfront : Numeral.readFront cs = some (n, []) := by
    unfold Numeral.read at h
    split at h
    · rename_i heq
      simp only [Option.some.injEq] at h
      rw [heq, h]
    · simp at h
  obtain ⟨hwhole, front, heq, hnum⟩ := readFront_eq_some hfront
  rw [List.append_nil] at heq
  refine ⟨heq ▸ hnum, ?_⟩
  have hne : cs.takeWhile Char.isDigit ≠ [] := hwhole ▸ isStrict_whole hs
  cases cs with
  | nil => simp at hne
  | cons c rest =>
    refine ⟨c, rest, rfl, ?_⟩
    by_contra hc
    simp [hc] at hne

theorem isNumeral_of_numberOfChars {cs : List Char} {v : Json} (h : numberOfChars cs = some v) :
    IsNumeral cs := by
  unfold numberOfChars at h
  split at h
  rename_i negative digits hsplit
  split at h
  · rename_i n hread
    split_ifs at h with hs
    obtain ⟨hchars, c, rest, hcs, hdigit⟩ := isNumeral_of_read hread hs
    split at hsplit
    · simp only [Prod.mk.injEq] at hsplit
      obtain ⟨-, rfl⟩ := hsplit
      refine ⟨?_, '-', _, rfl, by decide⟩
      intro d hd
      rcases List.mem_cons.mp hd with rfl | hd
      · decide
      · exact hchars d hd
    · simp only [Prod.mk.injEq] at hsplit
      obtain ⟨-, rfl⟩ := hsplit
      exact ⟨hchars, c, rest, hcs, by simp [startsNumeral, hdigit]⟩
  · simp at h

theorem isDigit_of_mem_toDigits {n : ℕ} {c : Char} (h : c ∈ Nat.toDigits 10 n) : c.isDigit :=
  Nat.isDigit_of_mem_toDigits (by decide) (by decide) h

/-- Only zero is written with a leading zero. -/
theorem toDigits_ten_cons {n : ℕ} {c : Char} {rest : List Char} (hn : n ≠ 0)
    (h : Nat.toDigits 10 n = c :: rest) : c ≠ '0' := by
  induction n using Nat.strong_induction_on generalizing c rest with
  | _ n ih =>
    rcases Nat.lt_or_ge n 10 with hlt | hge
    · rw [Nat.toDigits_of_lt_base hlt, List.cons.injEq] at h
      have hdigit := Nat.toNat_digitChar_sub_48_of_lt_ten hlt
      rintro rfl
      rw [h.1] at hdigit
      exact hn hdigit.symm
    · rw [Nat.toDigits_of_base_le (by decide) hge] at h
      cases hq : Nat.toDigits 10 (n / 10) with
      | nil => exact absurd hq Nat.toDigits_ne_nil
      | cons d ds =>
        rw [hq, List.cons_append, List.cons.injEq] at h
        rw [← h.1]
        exact ih (n / 10) (by omega) (by omega) hq

theorem digitsValue_toDigits (n : ℕ) : digitsValue 0 (Nat.toDigits 10 n) = n :=
  Nat.ofDigitChars_ten_toDigits

theorem takeWhile_toDigits (n : ℕ) :
    (Nat.toDigits 10 n).takeWhile Char.isDigit = Nat.toDigits 10 n :=
  List.takeWhile_eq_self_iff.mpr fun _ => isDigit_of_mem_toDigits

theorem read_toDigits (n : ℕ) : Numeral.read (Nat.toDigits 10 n) = some ⟨Nat.toDigits 10 n, none, none⟩ := by
  have hdrop : (Nat.toDigits 10 n).dropWhile Char.isDigit = [] :=
    List.dropWhile_eq_nil_iff.mpr fun _ => isDigit_of_mem_toDigits
  simp [Numeral.read, Numeral.readFront, hdrop, takeWhile_toDigits, Decimal.readPower,
    Decimal.readExponent, Nat.toDigits_ne_nil]

theorem isStrict_toDigits (n : ℕ) : isStrict ⟨Nat.toDigits 10 n, none, none⟩ := by
  rcases Nat.eq_zero_or_pos n with rfl | hn
  · decide
  · cases h : Nat.toDigits 10 n with
    | nil => exact absurd h Nat.toDigits_ne_nil
    | cons c rest =>
      have hc := toDigits_ten_cons hn.ne' h
      cases rest <;> simp [isStrict, hc]

/-- Integers that fit a word, signed when negative, read back as written. -/
theorem numberOfChars_intChars {n : ℤ} (hlow : -2 ^ 63 ≤ n) (hhigh : n ≤ wordLimit) :
    numberOfChars (intChars n) = some (.int n) := by
  cases n with
  | ofNat n =>
    cases hd : Nat.toDigits 10 n with
    | nil => exact absurd hd Nat.toDigits_ne_nil
    | cons c rest =>
      have hdigit : c.isDigit := isDigit_of_mem_toDigits (n := n) (by simp [hd])
      have hc : c ≠ '-' := by rintro rfl; exact absurd hdigit (by decide)
      have hword : n ≤ wordLimit := by simpa using hhigh
      have hread := read_toDigits n
      have hstrict := isStrict_toDigits n
      have hvalue := digitsValue_toDigits n
      rw [hd] at hread hstrict hvalue
      simp [numberOfChars, intChars, hd, hc, hread, hstrict, ofNumeral, hvalue, hword]
  | negSucc n =>
    have hword : n + 1 ≤ 2 ^ 63 := by omega
    simp only [numberOfChars, intChars, read_toDigits, isStrict_toDigits, if_true, ofNumeral,
      digitsValue_toDigits, Option.isSome_none, Bool.or_self, Bool.false_eq_true, if_false]
    rw [if_pos ⟨by omega, hword⟩]
    rfl

/-- A real whose written form is read as the same real. -/
def ReadsBack (x : Float) : Prop := numberOfChars (realChars x) = some (.real x)

/-- What is written for a real that is not finite is no number. -/
theorem isFinite_of_readsBack {x : Float} (h : ReadsBack x) : x.isFinite := by
  by_contra hfinite
  rw [ReadsBack, realChars, if_neg hfinite] at h
  cases h

theorem readsBack_half : ReadsBack 0.5 := by
  have hwritten : realChars 0.5 = ['0', '.', '5'] := by decide +kernel
  have hread : Decimal.Numeral.read ['0', '.', '5'] = some ⟨['0'], some ['5'], none⟩ := by
    decide +kernel
  have hkept : Kept.ofNumeral ⟨['0'], some ['5'], none⟩ = ⟨5, -1, false⟩ := by decide +kernel
  have hvalue : Kept.value ⟨5, -1, false⟩ = some 0.5 := by decide +kernel
  rw [ReadsBack, hwritten]
  simp [numberOfChars, hread, isStrict, ofNumeral, realOfNumeral, hkept, hvalue]

end QuantumKernels.Json
