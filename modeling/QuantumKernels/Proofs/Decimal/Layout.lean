import QuantumKernels.Decimal.Layout
import QuantumKernels.Proofs.Decimal.Shortest
import QuantumKernels.Proofs.Json.Numeral

/-!
# Numbers in running text read back

A positive double in running text is digits with at most one point among them. Whatever comes after it
that cannot go on a numeral, the same double is read from it.
-/
namespace QuantumKernels.Decimal

open Float.Model Float.Model.UnpackedFloat Binary64

/-- What goes on a numeral. -/
def continuesNumeral (c : Char) : Bool := c.isDigit || c == '.' || c == 'e' || c == 'E'

/-- The text does not go on a numeral that comes before it. -/
def EndsNumeral (rest : List Char) : Prop := ∀ c ∈ rest.head?, continuesNumeral c = false

theorem readExponent_of_ends {rest : List Char} (h : EndsNumeral rest) : readExponent rest = none := by
  cases rest with
  | nil => rfl
  | cons c after =>
    have hc : continuesNumeral c = false := h c rfl
    simp only [continuesNumeral, Bool.or_eq_false_iff, beq_eq_false_iff_ne] at hc
    simp [readExponent, hc]

theorem readPower_of_ends {rest : List Char} (h : EndsNumeral rest) (whole : List Char)
    (fraction : Option (List Char)) :
    readPower whole fraction rest = (⟨whole, fraction, none⟩, rest) := by
  rw [readPower, readExponent_of_ends h]

/-- A run of characters goes up to the first of another kind. -/
theorem takeWhile_append_stop {p : Char → Bool} {run rest : List Char} (hrun : ∀ c ∈ run, p c)
    (hrest : ∀ c ∈ rest.head?, p c = false) :
    (run ++ rest).takeWhile p = run ∧ (run ++ rest).dropWhile p = rest := by
  rw [List.takeWhile_append_of_pos hrun, List.dropWhile_append_of_pos hrun]
  cases rest with
  | nil => simp
  | cons c after =>
    have hc : p c = false := hrest c rfl
    simp [hc]

theorem EndsNumeral.not_digit {rest : List Char} (h : EndsNumeral rest) :
    ∀ c ∈ rest.head?, c.isDigit = false := by
  intro c hc
  have hends := h c hc
  simp only [continuesNumeral, Bool.or_eq_false_iff] at hends
  exact hends.1.1.1

/-- Digits, and then neither a digit nor a point. -/
theorem readFront_whole_power {ds rest : List Char} (hne : ds ≠ []) (hds : ∀ c ∈ ds, c.isDigit)
    (hrest : ∀ c ∈ rest.head?, c.isDigit = false) (hpoint : rest.head? ≠ some '.') :
    Numeral.readFront (ds ++ rest) = some (readPower ds none rest) := by
  obtain ⟨htake, hdrop⟩ := takeWhile_append_stop hds hrest
  have hdigits : ds.isEmpty = false := by simpa using hne
  rw [Numeral.readFront, htake, hdrop]
  dsimp only
  split
  · exact absurd rfl hpoint
  · rw [hdigits, if_neg (by decide)]

/-- Digits, a point and digits, and then no digit. -/
theorem readFront_fraction_power {ds fs rest : List Char} (hne : ds ≠ []) (hds : ∀ c ∈ ds, c.isDigit)
    (hfs : ∀ c ∈ fs, c.isDigit) (hrest : ∀ c ∈ rest.head?, c.isDigit = false) :
    Numeral.readFront (ds ++ '.' :: (fs ++ rest)) = some (readPower ds (some fs) rest) := by
  have hpoint : ∀ c ∈ ('.' :: (fs ++ rest)).head?, c.isDigit = false := by
    rintro c ⟨⟩
    rfl
  obtain ⟨htake, hdrop⟩ := takeWhile_append_stop hds hpoint
  obtain ⟨hfraction, hrest⟩ := takeWhile_append_stop hfs hrest
  have hdigits : ds.isEmpty = false := by simpa using hne
  simp only [Numeral.readFront, htake, hdrop, hfraction, hrest, hdigits, Bool.false_and]
  rfl

theorem readFront_whole {ds rest : List Char} (hne : ds ≠ []) (hds : ∀ c ∈ ds, c.isDigit)
    (h : EndsNumeral rest) : Numeral.readFront (ds ++ rest) = some (⟨ds, none, none⟩, rest) := by
  have hpoint : rest.head? ≠ some '.' := fun hhead => absurd (h '.' hhead) (by decide)
  rw [readFront_whole_power hne hds h.not_digit hpoint, readPower_of_ends h]

theorem readFront_fraction {ds fs rest : List Char} (hne : ds ≠ []) (hds : ∀ c ∈ ds, c.isDigit)
    (hfs : ∀ c ∈ fs, c.isDigit) (h : EndsNumeral rest) :
    Numeral.readFront (ds ++ '.' :: (fs ++ rest)) = some (⟨ds, some fs, none⟩, rest) := by
  rw [readFront_fraction_power hne hds hfs h.not_digit, readPower_of_ends h]

theorem digitsValue_append (n : ℕ) (xs ys : List Char) :
    digitsValue n (xs ++ ys) = digitsValue (digitsValue n xs) ys := List.foldl_append

theorem digitsValue_zeros (n k : ℕ) : digitsValue n (List.replicate k '0') = n * 10 ^ k := by
  induction k generalizing n with
  | zero => simp [digitsValue]
  | succ k ih =>
    rw [List.replicate_succ]
    change digitsValue (10 * n + 0) (List.replicate k '0') = n * 10 ^ (k + 1)
    rw [ih]
    ring

theorem toList_pushn (s : String) (c : Char) (n : ℕ) :
    (s.pushn c n).toList = s.toList ++ List.replicate n c := by
  rw [String.pushn_eq_repeat_push]
  induction n with
  | zero => simp [Nat.repeat]
  | succ n ih =>
    rw [Nat.repeat, String.toList_push, ih, List.replicate_succ', List.append_assoc]

theorem toList_toString (n : ℕ) : (toString n).toList = Nat.toDigits 10 n := by
  rw [Nat.toString_eq_ofList_toDigits, String.toList_ofList]

theorem length_toString (n : ℕ) : (toString n).length = (Nat.toDigits 10 n).length := by
  rw [← String.length_toList, toList_toString]

/-- The characters of a number with a point. -/
theorem toList_positionalDigits (d : Decimal) (pointZero : Bool) :
    (positionalDigits (toString d.coefficient) d.exponent pointZero).toList =
      let digits := Nat.toDigits 10 d.coefficient
      let whole := digits.length + d.exponent
      if 0 ≤ d.exponent then
        digits ++ List.replicate d.exponent.toNat '0' ++ (if pointZero then ['.', '0'] else [])
      else if 0 < whole then digits.take whole.toNat ++ '.' :: digits.drop whole.toNat
      else '0' :: '.' :: (List.replicate (-whole).toNat '0' ++ digits) := by
  rw [positionalDigits, length_toString, toList_toString]
  dsimp only
  split
  · cases pointZero <;> simp [toList_pushn]
  · split
    · simp
    · simp [toList_pushn]

/-- A text starts with a digit and is read as a decimal of this value. -/
def Spells (text : List Char) (d : Decimal) : Prop :=
  ∃ c cs, text = c :: cs ∧ c.isDigit ∧ ∀ rest, EndsNumeral rest →
    ∃ n, Numeral.readFront (c :: (cs ++ rest)) = some (n, rest) ∧ n.toDecimal.value = d.value

theorem spells_whole {d : Decimal} {ds : List Char} (hne : ds ≠ []) (hds : ∀ c ∈ ds, c.isDigit)
    (hvalue : digitsValue 0 ds = d.coefficient * 10 ^ d.exponent.toNat) (hexponent : 0 ≤ d.exponent) :
    Spells ds d := by
  obtain ⟨c, cs, rfl⟩ := List.exists_cons_of_ne_nil hne
  refine ⟨c, cs, rfl, hds c List.mem_cons_self, fun rest h => ⟨_, readFront_whole hne hds h, ?_⟩⟩
  simp only [Numeral.toDecimal, Option.getD_none, List.append_nil, hvalue, value,
    zpow_eq_pow_toNat 10 hexponent]
  simp

theorem spells_point {d : Decimal} {ds fs : List Char} (hne : ds ≠ []) (hds : ∀ c ∈ ds, c.isDigit)
    (hfs : ∀ c ∈ fs, c.isDigit) (hvalue : digitsValue 0 (ds ++ fs) = d.coefficient)
    (hlength : (fs.length : ℤ) = -d.exponent) : Spells (ds ++ '.' :: fs) d := by
  obtain ⟨c, cs, rfl⟩ := List.exists_cons_of_ne_nil hne
  refine ⟨c, cs ++ '.' :: fs, rfl, hds c List.mem_cons_self, fun rest h => ?_⟩
  refine ⟨⟨c :: cs, some fs, none⟩, ?_, ?_⟩
  · have hread := readFront_fraction hne hds hfs h
    simpa using hread
  · simp only [Numeral.toDecimal, Option.getD_some, Option.getD_none, hvalue, hlength, zero_sub, neg_neg]

/-- A number in running text spells its decimal. -/
theorem spells_positionalDigits (d : Decimal) :
    Spells (positionalDigits (toString d.coefficient) d.exponent false).toList d := by
  have hdigit : ∀ c ∈ Nat.toDigits 10 d.coefficient, c.isDigit := fun _ => Json.isDigit_of_mem_toDigits
  have hvalue := Json.digitsValue_toDigits d.coefficient
  have hne : Nat.toDigits 10 d.coefficient ≠ [] := Nat.toDigits_ne_nil
  simp only [toList_positionalDigits, Bool.false_eq_true, if_false, List.append_nil]
  generalize Nat.toDigits 10 d.coefficient = ds at hdigit hvalue hne ⊢
  have hzeros (k : ℕ) : ∀ c ∈ List.replicate k '0', c.isDigit := fun c hc => by
    rw [List.eq_of_mem_replicate hc]
    rfl
  split_ifs with hexponent hwhole
  · refine spells_whole (by simp [hne]) (fun c hc => ?_) ?_ hexponent
    · exact (List.mem_append.mp hc).elim (hdigit c) (hzeros _ c)
    · rw [digitsValue_append, hvalue, digitsValue_zeros]
  · refine spells_point ?_ (fun c hc => hdigit c (List.mem_of_mem_take hc))
      (fun c hc => hdigit c (List.mem_of_mem_drop hc)) ?_ ?_
    · have hlength : 0 < (ds.take (ds.length + d.exponent).toNat).length := by
        rw [List.length_take]
        omega
      exact List.ne_nil_of_length_pos hlength
    · rw [List.take_append_drop, hvalue]
    · rw [List.length_drop]
      omega
  · refine spells_point (List.cons_ne_nil '0' []) (by simp) (fun c hc => ?_) ?_ ?_
    · exact (List.mem_append.mp hc).elim (hzeros _ c) (hdigit c)
    · have hzero : digitsValue 0 ['0'] = 0 := rfl
      rw [digitsValue_append, digitsValue_append, digitsValue_zeros, hzero, zero_mul, hvalue]
    · rw [List.length_append, List.length_replicate]
      omega

/-- A double that is a number with a plus sign. -/
def Unsigned (x : Float) : Prop :=
  x.toModel.unpack = .zero .positive ∨ ∃ m e hm, x.toModel.unpack = .finite .positive m e hm

theorem not_negative {x : Float} (h : HasSign .positive x.toModel.unpack) : ¬ x.toBits >>> 63 = 1 := by
  intro hone
  have hbit := toNat_unpackSign x.toBits
  rw [hone] at hbit
  have hunpacked : @unpackSign Format.binary64 x.toBits.toBitVec = 1#1 := BitVec.eq_of_toNat_eq hbit
  have hpositive := sign_of_unpack (b := x.toBits.toBitVec) h
  rw [hunpacked] at hpositive
  cases hpositive

theorem Unsigned.hasSign {x : Float} (h : Unsigned x) : HasSign .positive x.toModel.unpack := by
  rcases h with hx | ⟨m, e, hm, hx⟩ <;> rw [hx] <;> rfl

theorem Unsigned.kind {x : Float} (h : Unsigned x) : x.isNaN = false ∧ x.isInf = false := by
  change x.toModel.unpack.isNaN = false ∧ x.toModel.unpack.isInf = false
  rcases h with hx | ⟨m, e, hm, hx⟩ <;> rw [hx] <;> exact ⟨rfl, rfl⟩

theorem render_plain {x : Float} (h : Unsigned x) : Layout.plain.render x =
    positionalDigits (toString (shortest .upward x.toBits).coefficient)
      (shortest .upward x.toBits).exponent false := by
  obtain ⟨hnan, hinf⟩ := h.kind
  rw [Layout.render, hnan, hinf]
  simp only [Bool.false_eq_true, if_false, if_neg (not_negative h.hasSign), String.empty_append]
  rw [Layout.magnitude, if_pos (by simp [Layout.plain])]
  rfl

/-- What has a plus sign is a number or infinite. -/
theorem unsigned_or_infinite {x : Float} (h : HasSign .positive x.toModel.unpack) :
    Unsigned x ∨ x.isInf = true := by
  cases hx : x.toModel.unpack with
  | notANumber =>
    rw [hx] at h
    exact h.elim
  | infinity s =>
    refine .inr ?_
    change x.toModel.unpack.isInf = true
    rw [hx]
    rfl
  | zero s =>
    rw [hx] at h
    cases h
    exact .inl (.inl hx)
  | finite s m e hm =>
    rw [hx] at h
    cases h
    exact .inl (.inr ⟨m, e, hm, hx⟩)

theorem render_plain_infinite {x : Float} (h : HasSign .positive x.toModel.unpack) (hinf : x.isInf = true) :
    Layout.plain.render x = "inf" := by
  have hnan : x.isNaN = false := by
    change x.toModel.unpack.isNaN = false
    cases hx : x.toModel.unpack with
    | notANumber =>
      rw [hx] at h
      exact h.elim
    | infinity | zero | finite => rfl
  rw [Layout.render, hnan, hinf]
  simp only [Bool.false_eq_true, if_false, if_true, if_neg (not_negative h)]
  rfl

/-- A double in running text is read back, whatever follows that does not go on a numeral. -/
theorem readFront_plain {x : Float} (h : Unsigned x) :
    ∃ c cs, (Layout.plain.render x).toList = c :: cs ∧ c.isDigit ∧ ∀ rest, EndsNumeral rest →
      ∃ n, Numeral.readFront (c :: (cs ++ rest)) = some (n, rest) ∧ n.toFloat = x := by
  obtain ⟨c, cs, htext, hc, hread⟩ := spells_positionalDigits (shortest .upward x.toBits)
  refine ⟨c, cs, (render_plain h) ▸ htext, hc, fun rest hrest => ?_⟩
  obtain ⟨n, hn, hvalue⟩ := hread rest hrest
  refine ⟨n, hn, ?_⟩
  rcases h with hx | ⟨m, e, hm, hx⟩
  · obtain rfl : x = 0 := eq_of_unpack_eq_zero hx rfl
    have hshortest : shortest .upward (0 : Float).toBits = ⟨0, 0⟩ := by decide +kernel
    have hzero : n.toDecimal.coefficient = 0 := by
      rw [hshortest, value, value, Nat.cast_zero, zero_mul] at hvalue
      have hpower : (10 : ℚ) ^ n.toDecimal.exponent ≠ 0 := by positivity
      exact_mod_cast (mul_eq_zero.mp hvalue).resolve_right hpower
    rw [Numeral.toFloat, toFloat, if_pos (by simp [hzero])]
  · exact toFloat_of_value_shortest hx hvalue

end QuantumKernels.Decimal
