import QuantumKernels.Proofs.Json.Kept

/-!
# Finite reals in documents

A finite real is written with a point or an exponent, and what is written is read as a real, though
not always as the same one: long numerals are read by scaling. Where they are rounded to nearest instead,
the real comes back.
-/
namespace QuantumKernels.Json

open Decimal (Numeral Layout Tie Magnitude digitsValue positionalDigits exponentDigits shortest readPower readExponent)
open Float.Model Float.Model.UnpackedFloat Binary64

/-- Whether a text without a sign is read as a real. -/
def readsReal (cs : List Char) : Bool :=
  (Numeral.read cs).any fun n =>
    isStrict n && (n.fraction.isSome || n.exponent.isSome) && (Kept.ofNumeral n).value.isSome

theorem readsReal_iff {cs : List Char} : readsReal cs ↔ ∃ n, Numeral.read cs = some n ∧ isStrict n ∧
    (n.fraction.isSome || n.exponent.isSome) ∧ (Kept.ofNumeral n).value.isSome := by
  rw [readsReal, Option.any_eq_true]
  simp only [Bool.and_eq_true, and_assoc]

theorem exists_real_of_readsReal {cs : List Char} (h : readsReal cs) :
    (∃ y, numberOfChars cs = some (.real y)) ∧ ∃ y, numberOfChars ('-' :: cs) = some (.real y) := by
  obtain ⟨n, hread, hstrict, hpoint, hkept⟩ := readsReal_iff.mp h
  obtain ⟨x, hx⟩ := Option.isSome_iff_exists.mp hkept
  have hnumber (negative : Bool) : ofNumeral negative n = .real (if negative then -x else x) := by
    rw [ofNumeral, if_pos hpoint, realOfNumeral, hx]
  constructor
  · refine ⟨x, ?_⟩
    cases cs with
    | nil => cases hread
    | cons c rest =>
      have hc : c ≠ '-' := by
        rintro rfl
        cases hread
      simp [numberOfChars, hc, hread, hstrict, hnumber]
  · refine ⟨-x, ?_⟩
    simp [numberOfChars, hread, hstrict, hnumber]

/-! ## Written reals -/

theorem digitsValue_lt {n : ℕ} {ds : List Char} (hds : ∀ c ∈ ds, c.isDigit) :
    digitsValue n ds < (n + 1) * 10 ^ ds.length := by
  induction ds generalizing n with
  | nil => simp [digitsValue]
  | cons d ds ih =>
    have hdigit : d.toNat - '0'.toNat ≤ 9 := by
      have hd := hds d List.mem_cons_self
      simp only [Char.isDigit, Bool.and_eq_true, decide_eq_true_eq, UInt32.le_iff_toNat_le] at hd
      have htop : d.toNat ≤ 57 := hd.2
      change d.toNat - 48 ≤ 9
      omega
    calc digitsValue n (d :: ds) = digitsValue (10 * n + (d.toNat - '0'.toNat)) ds := rfl
      _ < (10 * n + (d.toNat - '0'.toNat) + 1) * 10 ^ ds.length := ih fun c hc => hds c (List.mem_cons_of_mem _ hc)
      _ ≤ (10 * (n + 1)) * 10 ^ ds.length := Nat.mul_le_mul_right _ (by omega)
      _ = (n + 1) * 10 ^ (d :: ds).length := by rw [List.length_cons]; ring

/-- Up to sixteen digits fit a word. -/
theorem digitsValue_le_wordLimit {ds : List Char} (hds : ∀ c ∈ ds, c.isDigit) (hlength : ds.length ≤ 16) :
    digitsValue 0 ds ≤ wordLimit := by
  have hlt : digitsValue 0 ds < (0 + 1) * 10 ^ ds.length := digitsValue_lt hds
  have hle : 10 ^ ds.length ≤ 10 ^ 16 := Nat.pow_le_pow_right (by decide) hlength
  have hlimit : 10 ^ 16 ≤ wordLimit := by decide
  omega

/-- The whole part of a numeral of documents. -/
structure WholePart (ds : List Char) : Prop where
  digits : ∀ c ∈ ds, c.isDigit
  strict : ds = ['0'] ∨ ∃ c cs, ds = c :: cs ∧ c ≠ '0'
  short : ds.length ≤ 16

theorem WholePart.ne_nil {ds : List Char} (h : WholePart ds) : ds ≠ [] := by
  rcases h.strict with rfl | ⟨c, cs, rfl, -⟩ <;> simp

theorem WholePart.isStrict {ds : List Char} (h : WholePart ds) {fraction : Option (List Char)}
    (hfraction : fraction ≠ some []) (exponent : Option ℤ) : isStrict ⟨ds, fraction, exponent⟩ := by
  have hfraction : (fraction != some []) = true := bne_iff_ne.mpr hfraction
  rcases h.strict with rfl | ⟨c, cs, rfl, hc⟩
  · simpa [Json.isStrict] using hfraction
  · cases cs <;> simpa [Json.isStrict, hc] using hfraction

/-- A text is a numeral of documents, with a point or an exponent, and has the value of a decimal. -/
def Shows (cs : List Char) (d : Decimal) : Prop :=
  ∃ n, Numeral.read cs = some n ∧ WholePart n.whole ∧ n.fraction ≠ some [] ∧
    (n.fraction.isSome || n.exponent.isSome) ∧ n.toDecimal.value = d.value

/-- Such a text is read as a real if the decimal is not too near to the end of doubles. -/
theorem Shows.readsReal {cs : List Char} {d : Decimal} (h : Shows cs d)
    (hd : d.value * (1 + unitRoundoff) ^ 2 < overflow) : readsReal cs := by
  obtain ⟨n, hread, hwhole, hfraction, hpoint, hvalue⟩ := h
  obtain ⟨hword, hle⟩ := kept_le (n := n) (digitsValue_le_wordLimit hwhole.digits hwhole.short)
  rw [hvalue] at hle
  have hround : (0 : ℚ) ≤ (1 + unitRoundoff) ^ 2 := by norm_num [unitRoundoff]
  have hbounded : (Kept.ofNumeral n).Bounded := (mul_le_mul_of_nonneg_right hle hround).trans_lt hd
  exact readsReal_iff.mpr ⟨n, hread, hwhole.isStrict hfraction _, hpoint, Kept.value_isSome hword hbounded⟩

theorem isDigit_zeros {k : ℕ} {c : Char} (h : c ∈ List.replicate k '0') : c.isDigit := by
  rw [List.eq_of_mem_replicate h]
  rfl

/-- The digits of a number that is not zero start with another digit than zero. -/
theorem exists_toDigits {n : ℕ} (hn : n ≠ 0) : ∃ c cs, Nat.toDigits 10 n = c :: cs ∧ c ≠ '0' := by
  obtain ⟨c, cs, hdigits⟩ := List.exists_cons_of_ne_nil (Nat.toDigits_ne_nil (n := n) (b := 10))
  exact ⟨c, cs, hdigits, toDigits_ten_cons hn hdigits⟩

theorem read_point {ds fs : List Char} (hds : WholePart ds) (hfs : ∀ c ∈ fs, c.isDigit) :
    Numeral.read (ds ++ '.' :: fs) = some ⟨ds, some fs, none⟩ := by
  have hends : Decimal.EndsNumeral [] := nofun
  have hfront := Decimal.readFront_fraction hds.ne_nil hds.digits hfs hends
  rw [List.append_nil] at hfront
  rw [Numeral.read, hfront]

/-- The mark, the sign and the digits of an exponent. -/
def powerChars (e : ℤ) : List Char :=
  'e' :: if 0 ≤ e then '+' :: Nat.toDigits 10 e.toNat else '-' :: Nat.toDigits 10 (-e).toNat

theorem not_isDigit_powerChars (e : ℤ) : ∀ c ∈ (powerChars e).head?, c.isDigit = false := by
  rintro c ⟨⟩
  rfl

theorem readExponent_powerChars (e : ℤ) : readExponent (powerChars e) = some (e, []) := by
  have hdigits (n : ℕ) : (Nat.toDigits 10 n).dropWhile Char.isDigit = [] :=
    List.dropWhile_eq_nil_iff.mpr fun _ => isDigit_of_mem_toDigits
  rw [powerChars]
  split_ifs with he
  · simp [readExponent, Decimal.takeSign, hdigits, takeWhile_toDigits, digitsValue_toDigits, Nat.toDigits_ne_nil, he]
  · simp [readExponent, Decimal.takeSign, hdigits, takeWhile_toDigits, digitsValue_toDigits, Nat.toDigits_ne_nil]
    omega

theorem read_power {ds : List Char} (hds : WholePart ds) (e : ℤ) :
    Numeral.read (ds ++ powerChars e) = some ⟨ds, none, some e⟩ := by
  have hpoint : (powerChars e).head? ≠ some '.' := by simp [powerChars]
  have hfront := Decimal.readFront_whole_power hds.ne_nil hds.digits (not_isDigit_powerChars e) hpoint
  rw [Numeral.read, hfront, readPower, readExponent_powerChars]

theorem read_point_power {ds fs : List Char} (hds : WholePart ds) (hfs : ∀ c ∈ fs, c.isDigit) (e : ℤ) :
    Numeral.read (ds ++ '.' :: (fs ++ powerChars e)) = some ⟨ds, some fs, some e⟩ := by
  have hfront := Decimal.readFront_fraction_power hds.ne_nil hds.digits hfs (not_isDigit_powerChars e)
  rw [Numeral.read, hfront, readPower, readExponent_powerChars]

theorem toList_exponentDigits (n : ℕ) (e : ℤ) : (exponentDigits (toString n) e true).toList =
    (Nat.toDigits 10 n).take 1 ++ ((if ((Nat.toDigits 10 n).drop 1).isEmpty then []
      else '.' :: (Nat.toDigits 10 n).drop 1) ++ powerChars e) := by
  have hpower : 'e' :: ((if 0 ≤ e then "+" else "").toList ++ (toString e).toList) = powerChars e := by
    cases e with
    | ofNat m =>
      have hwritten : (toString (Int.ofNat m)).toList = Nat.toDigits 10 m := Decimal.toList_toString m
      have hsign : 0 ≤ Int.ofNat m := Int.natCast_nonneg m
      rw [hwritten, powerChars, if_pos hsign, if_pos hsign]
      rfl
    | negSucc m =>
      have hwritten : (toString (Int.negSucc m)).toList = '-' :: Nat.toDigits 10 (m + 1) := by
        change ("-" ++ toString (m + 1)).toList = _
        rw [String.toList_append, Decimal.toList_toString]
        rfl
      have hsign : ¬ 0 ≤ Int.negSucc m := by omega
      rw [hwritten, powerChars, if_neg hsign, if_neg hsign]
      rfl
  rw [← hpower, exponentDigits, Decimal.toList_toString]
  generalize (Nat.toDigits 10 n).drop 1 = fs
  cases fs <;> simp

theorem wholePart_zeros {d : Decimal} (hexponent : 0 ≤ d.exponent) (hzero : d.coefficient = 0 → d.exponent = 0)
    (hlead : d.coefficient = 0 ∨ (Nat.toDigits 10 d.coefficient).length + d.exponent ≤ 16) :
    WholePart (Nat.toDigits 10 d.coefficient ++ List.replicate d.exponent.toNat '0') := by
  refine ⟨fun c hc => (List.mem_append.mp hc).elim isDigit_of_mem_toDigits isDigit_zeros, ?_, ?_⟩
  · by_cases hc : d.coefficient = 0
    · rw [hc, hzero hc]
      exact .inl rfl
    · obtain ⟨c, cs, hdigits, hne⟩ := exists_toDigits hc
      rw [hdigits]
      exact .inr ⟨c, _, rfl, hne⟩
  · rw [List.length_append, List.length_replicate]
    rcases hlead with hc | hlead
    · rw [hc, hzero hc]
      decide
    · have hpos := Nat.length_toDigits_pos (b := 10) (n := d.coefficient)
      omega

theorem wholePart_take {n k : ℕ} (hn : n ≠ 0) (hpos : 0 < k) (hk : k ≤ 16) :
    WholePart ((Nat.toDigits 10 n).take k) := by
  obtain ⟨c, cs, hdigits, hne⟩ := exists_toDigits hn
  refine ⟨fun c hc => isDigit_of_mem_toDigits (List.mem_of_mem_take hc), ?_, ?_⟩
  · obtain ⟨j, rfl⟩ := Nat.exists_eq_succ_of_ne_zero hpos.ne'
    rw [hdigits]
    exact .inr ⟨c, cs.take j, rfl, hne⟩
  · rw [List.length_take]
    omega

section

variable {d : Decimal}

theorem shows_point {ds fs : List Char} (hds : WholePart ds) (hfs : ∀ c ∈ fs, c.isDigit) (hne : fs ≠ [])
    (hvalue : digitsValue 0 (ds ++ fs) = d.coefficient) (hlength : (fs.length : ℤ) = -d.exponent) :
    Shows (ds ++ '.' :: fs) d := by
  refine ⟨_, read_point hds hfs, hds, by simpa using hne, rfl, ?_⟩
  simp only [Numeral.toDecimal, Option.getD_some, Option.getD_none, hvalue, hlength, zero_sub, neg_neg]

/-- Two decimals of one value are shown by the same texts. -/
theorem Shows.of_value {cs : List Char} {d' : Decimal} (h : Shows cs d) (hvalue : d.value = d'.value) :
    Shows cs d' := by
  obtain ⟨n, hread, hwhole, hfraction, hpoint, hn⟩ := h
  exact ⟨n, hread, hwhole, hfraction, hpoint, hn.trans hvalue⟩

theorem shows_positional (hzero : d.coefficient = 0 → d.exponent = 0)
    (hlead : d.coefficient = 0 ∨ (Nat.toDigits 10 d.coefficient).length + d.exponent ≤ 16) :
    Shows (positionalDigits (toString d.coefficient) d.exponent true).toList d := by
  have hvalue := digitsValue_toDigits d.coefficient
  simp only [Decimal.toList_positionalDigits, if_true]
  split_ifs with hexponent hwhole
  · -- one more zero stands after the point
    have hsame : (Decimal.mk (d.coefficient * 10 ^ (d.exponent.toNat + 1)) (-1)).value = d.value := by
      rw [Decimal.value, Decimal.value, zpow_eq_pow_toNat 10 hexponent, zpow_neg_one]
      push_cast
      rw [pow_succ, ← mul_assoc, mul_inv_cancel_right₀ (by norm_num)]
    have hlastDigit : ∀ c ∈ ['0'], c.isDigit := by simp
    refine (shows_point (d := ⟨d.coefficient * 10 ^ (d.exponent.toNat + 1), -1⟩)
      (wholePart_zeros hexponent hzero hlead) hlastDigit (by simp) ?_ rfl).of_value hsame
    have hlast : (['0'] : List Char) = List.replicate 1 '0' := rfl
    rw [hlast, Decimal.digitsValue_append, Decimal.digitsValue_append, hvalue, Decimal.digitsValue_zeros,
      Decimal.digitsValue_zeros, pow_add, mul_assoc]
  · have hne : d.coefficient ≠ 0 := fun hc => hexponent (hzero hc).ge
    have hshort := hlead.resolve_left hne
    have hdrop : ((Nat.toDigits 10 d.coefficient).drop
        ((Nat.toDigits 10 d.coefficient).length + d.exponent).toNat).length = -d.exponent := by
      rw [List.length_drop]
      omega
    refine shows_point (wholePart_take hne (by omega) (by omega))
      (fun c hc => isDigit_of_mem_toDigits (List.mem_of_mem_drop hc)) (List.ne_nil_of_length_pos (by omega)) ?_ hdrop
    rw [List.take_append_drop, hvalue]
  · have hzeros : digitsValue 0 ['0'] = 0 := rfl
    have hfront : WholePart ['0'] := ⟨by simp, .inl rfl, by decide⟩
    refine shows_point hfront
      (fun c hc => (List.mem_append.mp hc).elim isDigit_zeros isDigit_of_mem_toDigits)
      (by simp [Nat.toDigits_ne_nil]) ?_ ?_
    · rw [Decimal.digitsValue_append, Decimal.digitsValue_append, Decimal.digitsValue_zeros, hzeros, zero_mul, hvalue]
    · rw [List.length_append, List.length_replicate]
      omega

theorem shows_exponent (hne : d.coefficient ≠ 0) {lead : ℤ}
    (hlead : (Nat.toDigits 10 d.coefficient).length + d.exponent - 1 = lead) :
    Shows (exponentDigits (toString d.coefficient) lead true).toList d := by
  have hvalue := digitsValue_toDigits d.coefficient
  have hone := wholePart_take hne Nat.one_pos (by decide)
  have hdigit : ∀ c ∈ (Nat.toDigits 10 d.coefficient).drop 1, c.isDigit := fun c hc =>
    isDigit_of_mem_toDigits (List.mem_of_mem_drop hc)
  rw [← List.take_append_drop 1 (Nat.toDigits 10 d.coefficient)] at hvalue hlead
  have hsingle : ((Nat.toDigits 10 d.coefficient).take 1).length = 1 := by
    have hpos := Nat.length_toDigits_pos (b := 10) (n := d.coefficient)
    rw [List.length_take]
    omega
  rw [List.length_append, hsingle] at hlead
  rw [toList_exponentDigits]
  generalize (Nat.toDigits 10 d.coefficient).take 1 = ds at hone hvalue
  generalize (Nat.toDigits 10 d.coefficient).drop 1 = fs at hdigit hvalue hlead
  have hexponent : lead - fs.length = d.exponent := by omega
  cases fs with
  | nil =>
    refine ⟨_, read_power hone lead, hone, by simp, rfl, ?_⟩
    rw [List.append_nil] at hvalue
    simp only [Numeral.toDecimal, Decimal.value, Option.getD_some, Option.getD_none, List.append_nil, hvalue, hexponent]
  | cons c cs =>
    refine ⟨_, read_point_power hone hdigit lead, hone, by simp, rfl, ?_⟩
    simp only [Numeral.toDecimal, Decimal.value, Option.getD_some, hvalue, hexponent]

/-- What is written for a decimal shows it. -/
theorem shows_magnitude (hzero : d.coefficient = 0 → d.exponent = 0) :
    Shows (Layout.stored.magnitude d).toList d := by
  simp only [Layout.magnitude, Decimal.length_toString]
  split_ifs with hpositional
  · refine shows_positional hzero ?_
    simp only [Layout.stored, Bool.or_eq_true, decide_eq_true_eq, Bool.and_eq_true] at hpositional
    omega
  · simp only [Bool.or_eq_true, decide_eq_true_eq, not_or] at hpositional
    exact shows_exponent hpositional.1 rfl

end

/-! ## Doubles -/

/-- The shortest decimal depends on the magnitude only. -/
theorem shortest_congr {bits bits' : UInt64} (h : Magnitude.ofBits bits = Magnitude.ofBits bits') (tie : Tie) :
    shortest tie bits = shortest tie bits' := by
  rw [shortest, shortest, h]

/-- The two greatest doubles, whose decimals are nearer to the end than two roundings. -/
theorem readsReal_greatest {bits : UInt64} {n : ℕ} {narrow : Bool} (hn : 2 ^ 53 - 2 ≤ n)
    (h : Magnitude.ofBits bits = ⟨n, 971, narrow⟩) (hcanonical : Magnitude.Canonical ⟨n, 971, narrow⟩) :
    readsReal (Layout.stored.magnitude (shortest .toEven bits)).toList := by
  have hlt : n < 2 ^ 53 := hcanonical.lt
  have hwide : narrow = false := by
    rw [← Bool.not_eq_true]
    intro hnarrow
    have hpower : n = 2 ^ 52 := (hcanonical.narrow.mp hnarrow).1
    omega
  have hcases : n = 2 ^ 53 - 2 ∨ n = 2 ^ 53 - 1 := by omega
  rcases hcases with rfl | rfl
  · have hbits : Magnitude.ofBits bits = Magnitude.ofBits 0x7feffffffffffffe := by
      rw [h, hwide]
      decide +kernel
    rw [shortest_congr hbits]
    decide +kernel
  · have hbits : Magnitude.ofBits bits = Magnitude.ofBits 0x7fefffffffffffff := by
      rw [h, hwide]
      decide +kernel
    rw [shortest_congr hbits]
    decide +kernel

/-- What a magnitude covers is not too near to the end of doubles, unless it is one of the two greatest. -/
theorem covered_lt_overflow {m : Magnitude} {q : ℚ} (hcovers : m.Covers q) (hcanonical : m.Canonical)
    (hhigh : m.exponent ≤ 971) (hsmall : m.exponent ≤ 970 ∨ m.significand ≤ 2 ^ 53 - 3) :
    q * (1 + unitRoundoff) ^ 2 < overflow := by
  have hend : (0 : ℚ) < 2 ^ (971 : ℤ) := by positivity
  have hbound : q ≤ (2 ^ 53 - 5 / 2) * 2 ^ (971 : ℤ) := by
    rcases hsmall with hexponent | hsignificand
    · have hhalf : (2 : ℚ) ^ (970 : ℤ) = 2 ^ (971 : ℤ) / 2 := by
        rw [show (971 : ℤ) = 970 + 1 by rfl, zpow_add_one₀ (by norm_num), mul_div_cancel_right₀ _ (by norm_num)]
      have hlt : (m.significand : ℚ) < 2 ^ 53 := by exact_mod_cast hcanonical.lt
      calc q ≤ (m.significand + 1 / 2) * 2 ^ m.exponent := hcovers.high
        _ ≤ (2 ^ 53 + 1 / 2) * 2 ^ (970 : ℤ) := by
          have hunit := two_zpow_le hexponent
          gcongr
        _ ≤ _ := by
          rw [hhalf]
          generalize (2 : ℚ) ^ (971 : ℤ) = unit at hend
          linarith only [hend]
    · have hle : (m.significand : ℚ) + 1 / 2 ≤ 2 ^ 53 - 5 / 2 := by
        have hcast : (m.significand : ℚ) + 3 ≤ 2 ^ 53 := by
          have hnat : m.significand + 3 ≤ 2 ^ 53 := by omega
          exact_mod_cast hnat
        linarith only [hcast]
      exact hcovers.high.trans (mul_le_mul hle (two_zpow_le hhigh) (by positivity) (by norm_num))
  have hround : (0 : ℚ) ≤ (1 + unitRoundoff) ^ 2 := by norm_num [unitRoundoff]
  refine (mul_le_mul_of_nonneg_right hbound hround).trans_lt ?_
  rw [overflow, mul_right_comm]
  exact mul_lt_mul_of_pos_right (by norm_num [unitRoundoff]) hend

/-- A double that is not zero is written by a decimal that is not zero. -/
theorem coefficient_shortest_ne_zero {x : Float} {s : Sign} {m : ℕ} {e : ℤ} {hm : 0 < m}
    (h : x.toModel.unpack = .finite s m e hm) (tie : Tie) : (shortest tie x.toBits).coefficient ≠ 0 := by
  have hfields : Binary64.Fields x.toBits.toBitVec s m e := fields_of_unpack h
  obtain ⟨narrow, hbits, -, -⟩ := Decimal.ofBits_of_fields hfields hm
  have hsignificand : 0 < (Magnitude.ofBits x.toBits).significand := by
    rw [hbits]
    exact hm
  have hcovers := Decimal.covers_shortest tie hsignificand
  rw [hbits] at hcovers
  have hpos : 0 < (shortest tie x.toBits).value := by
    have hone : (1 : ℚ) ≤ m := by exact_mod_cast hm
    have hgap := (Magnitude.mk m e narrow).gap_bounds.2
    exact (mul_pos (sub_pos.mpr (by linarith)) (by positivity)).trans_le hcovers.low
  intro hzero
  rw [Decimal.value, hzero, Nat.cast_zero, zero_mul] at hpos
  exact absurd hpos (lt_irrefl 0)

theorem readsReal_of_unpack {x : Float} {s : Sign} {m : ℕ} {e : ℤ} {hm : 0 < m}
    (h : x.toModel.unpack = .finite s m e hm) :
    readsReal (Layout.stored.magnitude (shortest .toEven x.toBits)).toList := by
  have hfields : Binary64.Fields x.toBits.toBitVec s m e := fields_of_unpack h
  obtain ⟨narrow, hbits, hcanonical, hhigh⟩ := Decimal.ofBits_of_fields hfields hm
  by_cases hsmall : e ≤ 970 ∨ m ≤ 2 ^ 53 - 3
  · have hsignificand : 0 < (Magnitude.ofBits x.toBits).significand := by
      rw [hbits]
      exact hm
    have hcovers := Decimal.covers_shortest .toEven hsignificand
    rw [hbits] at hcovers
    have hshows : Shows (Layout.stored.magnitude (shortest .toEven x.toBits)).toList (shortest .toEven x.toBits) :=
      shows_magnitude fun hzero => absurd hzero (coefficient_shortest_ne_zero h .toEven)
    exact hshows.readsReal (covered_lt_overflow hcovers hcanonical hhigh hsmall)
  · obtain rfl : e = 971 := by omega
    exact readsReal_greatest (by omega) hbits hcanonical

/-- A finite double is zero or has a significand and an exponent. -/
theorem unpack_of_isFinite {x : Float} (h : x.isFinite) : (∃ s, x.toModel.unpack = .zero s) ∨
    ∃ s m e hm, x.toModel.unpack = .finite s m e hm := by
  have hkind : x.toModel.unpack.isFinite := h
  cases hx : x.toModel.unpack with
  | notANumber | infinity =>
    rw [hx] at hkind
    cases hkind
  | zero s => exact .inl ⟨s, rfl⟩
  | finite s m e hm => exact .inr ⟨s, m, e, hm, rfl⟩

theorem kind_of_isFinite {x : Float} (h : x.isFinite) : x.isNaN = false ∧ x.isInf = false := by
  change x.toModel.unpack.isNaN = false ∧ x.toModel.unpack.isInf = false
  rcases unpack_of_isFinite h with ⟨s, hx⟩ | ⟨s, m, e, hm, hx⟩ <;> rw [hx] <;> exact ⟨rfl, rfl⟩

theorem ofBits_of_unpack_zero {x : Float} {s : Sign} (h : x.toModel.unpack = .zero s) :
    Magnitude.ofBits x.toBits = Magnitude.ofBits 0 := by
  cases s with
  | positive =>
    obtain rfl : x = 0 := eq_of_unpack_eq_zero h rfl
    decide +kernel
  | negative =>
    obtain rfl : x = -0 := eq_of_unpack_eq_zero h rfl
    decide +kernel

theorem readsReal_stored {x : Float} (h : x.isFinite) :
    readsReal (Layout.stored.magnitude (shortest .toEven x.toBits)).toList := by
  rcases unpack_of_isFinite h with ⟨s, hx⟩ | ⟨s, m, e, hm, hx⟩
  · rw [shortest_congr (ofBits_of_unpack_zero hx)]
    decide +kernel
  · exact readsReal_of_unpack hx

/-- The magnitude of a finite double is written as a numeral. -/
theorem shows_stored {x : Float} (h : x.isFinite) :
    Shows (Layout.stored.magnitude (shortest .toEven x.toBits)).toList (shortest .toEven x.toBits) := by
  rcases unpack_of_isFinite h with ⟨s, hx⟩ | ⟨s, m, e, hm, hx⟩
  · have hzero : shortest .toEven 0 = ⟨0, 0⟩ := by decide +kernel
    rw [shortest_congr (ofBits_of_unpack_zero hx), hzero]
    exact shows_magnitude fun _ => rfl
  · exact shows_magnitude fun hzero => absurd hzero (coefficient_shortest_ne_zero hx .toEven)

/-- A finite real is read as a real from what is written for it. -/
theorem exists_numberOfChars_realChars {x : Float} (h : x.isFinite) :
    ∃ y, numberOfChars (realChars x) = some (.real y) := by
  obtain ⟨hplus, hminus⟩ := exists_real_of_readsReal (readsReal_stored h)
  obtain ⟨hnan, hinf⟩ := kind_of_isFinite h
  rw [realChars, if_pos h, Layout.render, hnan, hinf]
  simp only [Bool.false_eq_true, if_false, String.toList_append]
  split_ifs
  · exact hminus
  · rw [String.toList_empty, List.nil_append]
    exact hplus

/-- Any other real leaves a text that is no number. -/
theorem numberOfChars_realChars_eq_none {x : Float} (h : ¬ x.isFinite) : numberOfChars (realChars x) = none := by
  rw [realChars, if_neg h]
  decide +kernel

theorem toFloat_of_value_eq_zero {d : Decimal} (h : d.value = 0) : d.toFloat = 0 := by
  have hzero : d.coefficient = 0 := by
    have hpower : (10 : ℚ) ^ d.exponent ≠ 0 := zpow_ne_zero _ (by norm_num)
    exact_mod_cast (mul_eq_zero.mp h).resolve_right hpower
  simp [Decimal.toFloat, hzero]

theorem negative_of_hasSign {x : Float} (h : HasSign .negative x.toModel.unpack) : x.toBits >>> 63 = 1 := by
  have hbit := toNat_unpackSign x.toBits
  have hsign : Sign.negative = Sign.ofBitVec (@unpackSign Format.binary64 x.toBits.toBitVec) := sign_of_unpack h
  have hone : @unpackSign Format.binary64 x.toBits.toBitVec = 1#1 :=
    (toBitVec_ofBitVec _).symm.trans (congrArg Sign.toBitVec hsign).symm
  rw [hone] at hbit
  exact UInt64.toNat_inj.mp hbit.symm

/-- A finite real is written as a numeral, after a minus sign if it has one. The double that is nearest to what is
written is the real itself. -/
theorem exists_numeral {x : Float} (h : x.isFinite) : ∃ cs n, Numeral.read cs = some n ∧ isStrict n ∧
    (n.fraction.isSome || n.exponent.isSome) ∧
      (realChars x = cs ∧ n.toFloat = x ∨ realChars x = '-' :: cs ∧ -n.toFloat = x) := by
  obtain ⟨n, hread, hwhole, hfraction, hpoint, hvalue⟩ := shows_stored h
  refine ⟨_, n, hread, hwhole.isStrict hfraction n.exponent, hpoint, ?_⟩
  obtain ⟨hnan, hinf⟩ := kind_of_isFinite h
  have hchars : realChars x = (if x.toBits >>> 63 = 1 then ['-'] else []) ++
      (Layout.stored.magnitude (shortest .toEven x.toBits)).toList := by
    rw [realChars, if_pos h, Layout.render, hnan, hinf]
    simp only [Bool.false_eq_true, if_false, String.toList_append]
    split_ifs <;> rfl
  have hpositive (hsign : HasSign .positive x.toModel.unpack) :
      realChars x = (Layout.stored.magnitude (shortest .toEven x.toBits)).toList := by
    rw [hchars, if_neg (Decimal.not_negative hsign), List.nil_append]
  have hnegative (hsign : HasSign .negative x.toModel.unpack) :
      realChars x = '-' :: (Layout.stored.magnitude (shortest .toEven x.toBits)).toList := by
    rw [hchars, if_pos (negative_of_hasSign hsign), List.singleton_append]
  rcases unpack_of_isFinite h with ⟨s, hx⟩ | ⟨s, m, e, hm, hx⟩
  · have hzero : n.toFloat = 0 := by
      refine toFloat_of_value_eq_zero (hvalue.trans ?_)
      rw [shortest_congr (ofBits_of_unpack_zero hx)]
      decide +kernel
    cases s with
    | positive => exact .inl ⟨hpositive (by rw [hx]; rfl), hzero.trans (eq_of_unpack_eq_zero hx rfl).symm⟩
    | negative =>
      refine .inr ⟨hnegative (by rw [hx]; rfl), ?_⟩
      rw [hzero]
      exact (eq_of_unpack_eq_zero hx rfl).symm
  · cases s with
    | positive => exact .inl ⟨hpositive (by rw [hx]; rfl), Decimal.toFloat_of_value_shortest hx hvalue⟩
    | negative => exact .inr ⟨hnegative (by rw [hx]; rfl), Decimal.neg_toFloat_of_value_shortest hx hvalue⟩

end QuantumKernels.Json
