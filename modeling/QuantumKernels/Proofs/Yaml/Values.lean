import QuantumKernels.Proofs.Yaml.Flow
import QuantumKernels.Proofs.Decimal.Natural
import QuantumKernels.Yaml.Value

/-!
# Values of documents

A document that is written and read as YAML is the document that was written, if its integers fit a word, its
reals are finite, and its records are in the order of their names. Without the last of these its parts can
still be read one by one.
-/
namespace QuantumKernels

theorem Dictionary.entries_ofList {α : Type} {l : List (String × α)} (h : l.Pairwise fun a b => a.1 < b.1) :
    (Dictionary.ofList l).entries = l :=
  Dictionary.entries_insertMany (m := .empty) h

namespace Yaml

open Json Decimal

/-! ## Numbers -/

theorem ne_sign_of_isDigit {c : Char} (hc : c.isDigit) : c ≠ '-' ∧ c ≠ '+' := by
  constructor
  · rintro rfl
    exact absurd hc (by decide)
  · rintro rfl
    exact absurd hc (by decide)

theorem readDigits?_eq {cs : List Char} (hne : cs ≠ []) (hcs : ∀ c ∈ cs, c.isDigit) :
    readDigits? 10 cs = some (digitsValue 0 cs) := by
  have hfold : ∀ start,
      cs.foldlM (fun n c => (digitValue? 10 c).map (10 * n + ·)) start = some (digitsValue start cs) := by
    clear hne
    induction cs with
    | nil => exact fun start => rfl
    | cons c cs ih =>
      intro start
      have hc : c.isDigit := hcs c (by simp)
      rw [List.foldlM_cons, digitValue?_ten, if_pos hc]
      exact ih (fun d hd => hcs d (by simp [hd])) _
  obtain ⟨c, rest, rfl⟩ := List.exists_cons_of_ne_nil hne
  exact hfold 0

/-- The digits a number is written with have no leading zero and are no notation for another base. -/
theorem readUnsigned?_toDigits (n : ℕ) : readUnsigned? (Nat.toDigits 10 n) = some n := by
  have hread : readDigits? 10 (Nat.toDigits 10 n) = some n := by
    rw [readDigits?_eq Nat.toDigits_ne_nil fun c => isDigit_of_mem_toDigits, digitsValue_toDigits]
  rcases Nat.eq_zero_or_pos n with rfl | hn
  · rfl
  · obtain ⟨c, rest, hdigits, hzero⟩ := exists_toDigits hn.ne'
    have hc : c.isDigit := isDigit_of_mem_toDigits (n := n) (by simp [hdigits])
    have hleading : hasLeadingZero (c :: rest) = false := by
      simp [hasLeadingZero, ne_sign_of_isDigit hc, hzero]
    rw [hdigits] at hread ⊢
    unfold readUnsigned?
    split
    iterate 3
      rename_i heq
      exact absurd (List.cons.inj heq).1 hzero
    · rw [hleading, if_neg Bool.false_ne_true, hread]

theorem readInteger?_intChars (n : ℤ) : readInteger? (intChars n) = some n := by
  cases n with
  | ofNat n =>
    have hdigits := readUnsigned?_toDigits n
    rw [intChars]
    unfold readInteger?
    split
    · rename_i rest hrest
      exact absurd rfl (ne_sign_of_isDigit (isDigit_of_mem_toDigits (n := n) (by simp [hrest]))).1
    · rename_i rest hrest
      exact absurd rfl (ne_sign_of_isDigit (isDigit_of_mem_toDigits (n := n) (by simp [hrest]))).2
    · rw [hdigits]
      rfl
  | negSucc n =>
    rw [intChars, readInteger?, readUnsigned?_toDigits]
    rfl

/-- A text that starts with a digit, after a minus sign or without one. -/
def StartsNumber (cs : List Char) : Prop := ∃ c rest, c.isDigit ∧ (cs = c :: rest ∨ cs = '-' :: c :: rest)

/-- It is no word without a digit among the first two characters. -/
theorem StartsNumber.ne_word {cs : List Char} (h : StartsNumber cs) {w : String}
    (hw : (w.toList.take 2).all (fun c => !c.isDigit) = true) : String.ofList cs ≠ w := by
  rintro rfl
  rw [String.toList_ofList] at hw
  obtain ⟨c, rest, hc, rfl | rfl⟩ := h
  · simp [hc] at hw
  · simp [hc] at hw

theorem StartsNumber.not_contains {cs : List Char} (h : StartsNumber cs) {words : List String}
    (hwords : words.all (fun w => (w.toList.take 2).all fun c => !c.isDigit) = true) :
    ¬ words.contains (String.ofList cs) = true :=
  fun hmem => h.ne_word (List.all_eq_true.mp hwords _ (List.contains_iff_mem.mp hmem)) rfl

/-- Where a number may stand, a plain scalar is neither nothing nor a truth value. -/
theorem StartsNumber.no_word {cs : List Char} (h : StartsNumber cs) :
    ¬ ((String.ofList cs).isEmpty = true ∨ nulls.contains (String.ofList cs) = true) ∧
      truthValues.lookup (String.ofList cs) = none := by
  have htruths : truthValues.all (fun e => (e.1.toList.take 2).all fun c => !c.isDigit) = true := rfl
  constructor
  · rintro (hempty | hnull)
    · exact h.ne_word rfl (String.isEmpty_iff.mp hempty)
    · exact h.not_contains rfl hnull
  · refine List.lookup_eq_none_iff.mpr fun e he => ?_
    exact bne_iff_ne.mpr (h.ne_word (List.all_eq_true.mp htruths e he))

theorem startsNumber_intChars (n : ℤ) : StartsNumber (intChars n) := by
  have hdigits (n : ℕ) : ∃ c rest, c.isDigit ∧ Nat.toDigits 10 n = c :: rest := by
    obtain ⟨c, rest, hdigits⟩ := List.exists_cons_of_ne_nil (Nat.toDigits_ne_nil (n := n) (b := 10))
    exact ⟨c, rest, isDigit_of_mem_toDigits (n := n) (by simp [hdigits]), hdigits⟩
  cases n with
  | ofNat n =>
    obtain ⟨c, rest, hc, hdigits⟩ := hdigits n
    exact ⟨c, rest, hc, .inl hdigits⟩
  | negSucc n =>
    obtain ⟨c, rest, hc, hdigits⟩ := hdigits (n + 1)
    exact ⟨c, rest, hc, .inr (congrArg ('-' :: ·) hdigits)⟩

theorem plainValue_int {n : ℤ} (hlow : -2 ^ 63 ≤ n) (hhigh : n < 2 ^ 64) :
    plainValue (int n).compact = some (.int n) := by
  have htext : (int n).compact = String.ofList (intChars n) := rfl
  obtain ⟨hword, htruth⟩ := (startsNumber_intChars n).no_word
  rw [htext, plainValue, if_neg hword, htruth, String.toList_ofList, readInteger?_intChars]
  exact if_pos ⟨hlow, hhigh⟩

theorem natural?_toNode {n limit : ℕ} (h : n ≤ limit) : Node.natural? limit (Json.ofNat n).toNode = some n := by
  have hplus : (Nat.toDigits 10 n).head? ≠ some '+' := by
    intro hhead
    exact absurd (isDigit_of_mem_toDigits (List.mem_of_mem_head? hhead)) (by decide)
  have htext : (Json.ofNat n).toNode = .scalar (String.ofList (Nat.toDigits 10 n)) true := rfl
  rw [htext, Node.natural?, String.toList_ofList, if_neg hplus]
  simp [readUnsigned?_toDigits, h]

/-! ## Reals -/

theorem readDigits?_eq_none {cs : List Char} (hcs : ¬ ∀ c ∈ cs, c.isDigit) : readDigits? 10 cs = none := by
  have hfold : ∀ start, cs.foldlM (fun n c => (digitValue? 10 c).map (10 * n + ·)) start = none := by
    induction cs with
    | nil => exact absurd (fun c hc => by cases hc) hcs
    | cons c cs ih =>
      intro start
      rw [List.foldlM_cons, digitValue?_ten]
      by_cases hc : c.isDigit = true
      · rw [if_pos hc]
        exact ih (fun hall => hcs (List.forall_mem_cons.mpr ⟨hc, hall⟩)) _
      · rw [if_neg hc]
        rfl
  cases cs with
  | nil => rfl
  | cons c cs => exact hfold 0

section

variable {cs : List Char} {n : Numeral} (hread : Numeral.read cs = some n) (hstrict : isStrict n)
  (hpoint : (n.fraction.isSome || n.exponent.isSome) = true)
include hread hstrict

theorem startsNumber_of_read : StartsNumber cs ∧ StartsNumber ('-' :: cs) := by
  obtain ⟨-, c, rest, rfl, hc⟩ := isNumeral_of_read hread hstrict
  exact ⟨⟨c, rest, hc, .inl rfl⟩, ⟨c, rest, hc, .inr rfl⟩⟩

include hpoint

/-- A numeral with a point or an exponent is not made of digits alone. -/
theorem not_digits_of_read : ¬ ∀ c ∈ cs, c.isDigit := by
  intro hall
  obtain ⟨-, c, rest, hcs, -⟩ := isNumeral_of_read hread hstrict
  have hne : cs ≠ [] := hcs ▸ List.cons_ne_nil c rest
  have hends : EndsNumeral [] := nofun
  have hfront := readFront_whole hne hall hends
  rw [List.append_nil] at hfront
  rw [Numeral.read, hfront] at hread
  cases hread
  cases hpoint

/-- So it is no integer, whatever its sign. -/
theorem readUnsigned?_eq_none : readUnsigned? cs = none := by
  have hnone := readDigits?_eq_none (not_digits_of_read hread hstrict hpoint)
  obtain ⟨hchars, -⟩ := isNumeral_of_read hread hstrict
  have hbase {c : Char} (hc : isNumeralChar c = false) : c ∉ cs := by
    intro hmem
    rw [hchars c hmem] at hc
    cases hc
  unfold readUnsigned?
  split
  · exact absurd (by simp) (hbase (c := 'x') rfl)
  · exact absurd (by simp) (hbase (c := 'o') rfl)
  · exact absurd (by simp) (hbase (c := 'b') rfl)
  · rw [hnone, ite_self]

theorem readInteger?_eq_none : readInteger? cs = none ∧ readInteger? ('-' :: cs) = none := by
  have hunsigned := readUnsigned?_eq_none hread hstrict hpoint
  obtain ⟨-, c, rest, rfl, hc⟩ := isNumeral_of_read hread hstrict
  refine ⟨?_, by rw [readInteger?, hunsigned]; rfl⟩
  unfold readInteger?
  split
  · rename_i heq
    exact absurd (List.cons.inj heq).1 (ne_sign_of_isDigit hc).1
  · rename_i heq
    exact absurd (List.cons.inj heq).1 (ne_sign_of_isDigit hc).2
  · rw [hunsigned, Option.map_none]

theorem hasLeadingZero_eq_false : hasLeadingZero cs = false ∧ hasLeadingZero ('-' :: cs) = false := by
  have hall : cs.all Char.isDigit = false :=
    Bool.eq_false_iff.mpr fun hall => not_digits_of_read hread hstrict hpoint (List.all_eq_true.mp hall)
  obtain ⟨-, c, rest, rfl, hc⟩ := isNumeral_of_read hread hstrict
  have hunsigned : ¬ ((c :: rest).head? = some '-' ∨ (c :: rest).head? = some '+') := by
    simp [ne_sign_of_isDigit hc]
  constructor
  · rw [hasLeadingZero, if_neg hunsigned, hall, Bool.and_false]
  · rw [hasLeadingZero, if_pos (.inl rfl), List.tail_cons, hall, Bool.and_false]

end

theorem toLower_of_isDigit {c : Char} (hc : c.isDigit) : c.toLower = c := by
  refine dif_neg fun hupper => ?_
  have hlow : 65 ≤ c.val.toNat := UInt32.le_iff_toNat_le.mp hupper.1
  have hhigh : c.val.toNat ≤ 57 := UInt32.le_iff_toNat_le.mp (of_decide_eq_true (Bool.and_eq_true_iff.mp hc).2)
  omega

/-- A text that starts with a digit is the name of no infinity, in no spelling. -/
theorem readUnsignedReal_of_digit {c : Char} {rest : List Char} (hc : c.isDigit) :
    readUnsignedReal (c :: rest) = (Numeral.read (c :: rest)).map Numeral.toFloat := by
  have hlower : StartsNumber ((c :: rest).map Char.toLower) :=
    ⟨c, rest.map Char.toLower, hc, .inl (by rw [List.map_cons, toLower_of_isDigit hc])⟩
  unfold readUnsignedReal
  split
  iterate 3
    rename_i heq
    exact absurd heq (hlower.ne_word rfl)
  · rfl

theorem readReal_of_digit {c : Char} {rest : List Char} {n : Numeral} (hc : c.isDigit)
    (hread : Numeral.read (c :: rest) = some n) :
    readReal (c :: rest) = .ok n.toFloat ∧ readReal ('-' :: c :: rest) = .ok (-n.toFloat) := by
  have hunsigned : readUnsignedReal (c :: rest) = some n.toFloat := by
    rw [readUnsignedReal_of_digit hc, hread, Option.map_some]
  refine ⟨?_, by rw [readReal, hunsigned]; rfl⟩
  unfold readReal
  split
  · rename_i heq
    cases heq
  · rename_i heq
    exact absurd (List.cons.inj heq).1 (ne_sign_of_isDigit hc).1
  · rename_i heq
    exact absurd (List.cons.inj heq).1 (ne_sign_of_isDigit hc).2
  · rw [hunsigned]
    rfl

theorem StartsNumber.readReal? {cs : List Char} {x : Float} (h : StartsNumber cs) (hread : readReal cs = .ok x)
    (hx : x.isFinite) : Yaml.readReal? cs = some x := by
  have hplus : ¬ cs.head? = some '+' := by
    obtain ⟨c, rest, hc, rfl | rfl⟩ := h
    · exact fun heq => (ne_sign_of_isDigit hc).2 (Option.some.inj heq)
    · simp
  rw [Yaml.readReal?, if_neg hplus, if_neg (h.not_contains rfl), if_neg (h.not_contains rfl),
    if_neg (h.not_contains rfl), if_neg (fun hsigns => hplus hsigns.1), hread]
  exact if_pos hx

theorem plainValue_of_readReal {cs : List Char} {x : Float} (hstart : StartsNumber cs)
    (hinteger : readInteger? cs = none) (hzero : hasLeadingZero cs = false) (hread : readReal cs = .ok x)
    (hx : x.isFinite) : plainValue (String.ofList cs) = some (.real x) := by
  obtain ⟨hword, htruth⟩ := hstart.no_word
  have hreal : plainValue.realOrText (String.ofList cs) = .real x := by
    rw [plainValue.realOrText, String.toList_ofList, hstart.readReal? hread hx]
    exact if_pos hx
  rw [plainValue, if_neg hword, htruth, String.toList_ofList, hinteger]
  simp only [hzero, Bool.false_eq_true, if_false, hreal]

/-- A finite real is read back. -/
theorem plainValue_real {x : Float} (hx : x.isFinite) : plainValue (real x).compact = some (.real x) := by
  obtain ⟨cs, n, hread, hstrict, hpoint, hchars⟩ := exists_numeral hx
  obtain ⟨hinteger, hinteger'⟩ := readInteger?_eq_none hread hstrict hpoint
  obtain ⟨hzero, hzero'⟩ := hasLeadingZero_eq_false hread hstrict hpoint
  obtain ⟨hstart, hstart'⟩ := startsNumber_of_read hread hstrict
  obtain ⟨-, c, rest, rfl, hc⟩ := isNumeral_of_read hread hstrict
  obtain ⟨hreal, hreal'⟩ := readReal_of_digit hc hread
  have htext : (real x).compact = String.ofList (realChars x) := rfl
  rcases hchars with ⟨hplain, rfl⟩ | ⟨hminus, rfl⟩
  · rw [htext, hplain]
    exact plainValue_of_readReal hstart hinteger hzero hreal hx
  · rw [htext, hminus]
    exact plainValue_of_readReal hstart' hinteger' hzero' hreal' hx

end Yaml

namespace Json

open Yaml

/-! ## Documents -/

/-- The document is the same after it has been read as YAML. -/
inductive Settled : Json → Prop
  | null : Settled .null
  | bool (b : Bool) : Settled (.bool b)
  | int {n : ℤ} (low : -2 ^ 63 ≤ n) (high : n < 2 ^ 64) : Settled (.int n)
  | real {x : Float} (h : x.isFinite) : Settled (.real x)
  | text (s : String) : Settled (.text s)
  | list {items : List Json} (h : ∀ v ∈ items, Settled v) : Settled (.list items)
  | record {fields : List (String × Json)} (hascending : fields.Pairwise fun a b => a.1 < b.1)
      (h : ∀ e ∈ fields, Settled e.2) : Settled (.record fields)

theorem itemsToJson?_itemNodes {items : List Json} (h : ∀ v ∈ items, v.toNode.toJson? = some v) :
    Node.itemsToJson? (toNode.itemNodes items) = some items := by
  induction items with
  | nil => rfl
  | cons v items ih =>
    obtain ⟨hv, hitems⟩ := List.forall_mem_cons.mp h
    simp [toNode.itemNodes, Node.itemsToJson?, hv, ih hitems]

theorem entriesToJson?_fieldNodes {fields : List (String × Json)} (h : ∀ e ∈ fields, e.2.toNode.toJson? = some e.2) :
    Node.entriesToJson? (toNode.fieldNodes fields) = some fields := by
  induction fields with
  | nil => rfl
  | cons e fields ih =>
    obtain ⟨he, hfields⟩ := List.forall_mem_cons.mp h
    simp [toNode.fieldNodes, Node.entriesToJson?, Node.toJson?, he, ih hfields]

theorem Settled.toJson?_toNode {v : Json} (h : v.Settled) : v.toNode.toJson? = some v := by
  induction h with
  | null => rfl
  | bool b => cases b <;> rfl
  | int low high => exact plainValue_int low high
  | real h => exact plainValue_real h
  | text s => rfl
  | list _ ih => simp [toNode, Node.toJson?, itemsToJson?_itemNodes ih]
  | record hascending _ ih =>
    simp [toNode, Node.toJson?, entriesToJson?_fieldNodes ih, Dictionary.entries_ofList hascending]

/-- A record that is written and read as YAML is the record that was written. -/
theorem toJson?_read_record {fields : List (String × Json)} (hportable : (record fields).Portable)
    (hsettled : (record fields).Settled) :
    (Node.read (record fields).compact).bind Node.toJson? = some (record fields) := by
  rw [read_record hportable, Option.bind_some, hsettled.toJson?_toNode]

theorem toJson?_read_list {items : List Json} (hportable : ∀ v ∈ items, v.Portable) (hsettled : (list items).Settled) :
    (Node.read (list items).compact).bind Node.toJson? = some (list items) := by
  rw [read_list hportable, Option.bind_some, hsettled.toJson?_toNode]

end Json

end QuantumKernels
