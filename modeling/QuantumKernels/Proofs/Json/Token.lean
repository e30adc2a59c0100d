import QuantumKernels.Proofs.Json.Numeral
import QuantumKernels.Json.Reader
import Mathlib.Tactic.IntervalCases

/-!
# Tokens of documents

`tokensOf` lists the tokens of a document. A word or a numeral is scanned as one token, up to a
character that neither goes on with. A document is legible if its numbers read back as written and
every part of it has a written form of its own.
-/
namespace QuantumKernels.Json

/-- Every part stands for itself once it is written. -/
inductive Legible : Json → Prop
  | null : Legible .null
  | bool (b : Bool) : Legible (.bool b)
  | int {n : ℤ} (low : -2 ^ 63 ≤ n) (high : n ≤ wordLimit) : Legible (.int n)
  | real {x : Float} (h : ReadsBack x) : Legible (.real x)
  | text (s : String) : Legible (.text s)
  | list {items : List Json} (h : ∀ v ∈ items, Legible v) : Legible (.list items)
  | record {fields : List (String × Json)} (h : ∀ e ∈ fields, Legible e.2) : Legible (.record fields)

/-- The comma before an item that is not the first. -/
def separatorTokens (first : Bool) : List Token := if first then [] else [.comma]

def tokensOf : Json → List Token
  | list items => .openList :: (itemTokens true items ++ [.closeList])
  | record fields => .openRecord :: (fieldTokens true fields ++ [.closeRecord])
  | v => [.atom v]
where
  itemTokens (first : Bool) : List Json → List Token
    | [] => []
    | v :: rest => separatorTokens first ++ (v.tokensOf ++ itemTokens false rest)
  fieldTokens (first : Bool) : List (String × Json) → List Token
    | [] => []
    | (k, v) :: rest =>
      separatorTokens first ++ (.atom (.text k) :: .colon :: (v.tokensOf ++ fieldTokens false rest))

/-- A scan over some more characters. -/
def Scan.run (s : Scan) (cs : List Char) : Option Scan := cs.foldlM Scan.step s

theorem Scan.run_nil (s : Scan) : s.run [] = some s := rfl

theorem Scan.run_cons (s : Scan) (c : Char) (cs : List Char) :
    s.run (c :: cs) = (s.step c).bind fun s => s.run cs := rfl

/-- Whether neither a word nor a numeral goes on with a character. -/
def endsAtom (c : Char) : Bool := !c.isLower && !isNumeralChar c

namespace Scan

theorem run_numeralChars (done : List Token) (before chars rest : List Char)
    (h : ∀ c ∈ chars, isNumeralChar c) :
    (Scan.mk done (.numeral before)).run (chars ++ rest) =
      (Scan.mk done (.numeral (chars.reverse ++ before))).run rest := by
  induction chars generalizing before with
  | nil => rfl
  | cons c cs ih =>
    have hc : isNumeralChar c = true := h c (by simp)
    have hi := ih (c :: before) fun d hd => h d (by simp [hd])
    simpa [run_cons, step, hc] using hi

theorem run_word_end {letters : List Char} {v : Json} (done : List Token) {c : Char}
    (rest : List Char) (hv : wordValue letters.reverse = some v) (hc : endsAtom c) :
    (Scan.mk done (.word letters)).run (c :: rest) =
      (Scan.mk (.atom v :: done) .nothing).run (c :: rest) := by
  have hlower : c.isLower = false := by
    have hboth := hc
    simp only [endsAtom, Bool.and_eq_true, Bool.not_eq_true'] at hboth
    exact hboth.1
  simp [run_cons, step, hlower, hv]

theorem run_numeral_end {chars : List Char} {v : Json} (done : List Token) {c : Char}
    (rest : List Char) (hv : numberOfChars chars.reverse = some v) (hc : endsAtom c) :
    (Scan.mk done (.numeral chars)).run (c :: rest) =
      (Scan.mk (.atom v :: done) .nothing).run (c :: rest) := by
  have hnum : isNumeralChar c = false := by
    have hboth := hc
    simp only [endsAtom, Bool.and_eq_true, Bool.not_eq_true'] at hboth
    exact hboth.2
  simp [run_cons, step, hnum, hv]

theorem step_startsNumeral (done : List Token) {c : Char} (h : startsNumeral c) :
    (Scan.mk done .nothing).step c = some ⟨done, .numeral [c]⟩ := by
  have hcases : c = '-' ∨ 48 ≤ c.toNat ∧ c.toNat ≤ 57 := by
    simpa [startsNumeral, Char.isDigit, UInt32.le_iff_toNat_le] using h
  rcases hcases with rfl | ⟨hlow, hhigh⟩
  · rfl
  · rw [← Char.ofNat_toNat c]
    generalize c.toNat = n at hlow hhigh
    interval_cases n <;> rfl

/-- A text that is a number, up to where the value ends. -/
theorem run_numeral {chars : List Char} {v : Json} (done : List Token) {c : Char}
    (rest : List Char) (hv : numberOfChars chars = some v) (hc : endsAtom c) :
    (Scan.mk done .nothing).run (chars ++ c :: rest) =
      (Scan.mk (.atom v :: done) .nothing).run (c :: rest) := by
  obtain ⟨hchars, d, tail, rfl, hd⟩ := isNumeral_of_numberOfChars hv
  have htail : ∀ e ∈ tail, isNumeralChar e := fun e he => hchars e (by simp [he])
  rw [List.cons_append, run_cons, step_startsNumeral done hd, Option.bind_some,
    run_numeralChars done [d] tail (c :: rest) htail]
  exact run_numeral_end done rest (by simpa using hv) hc

end Scan

end QuantumKernels.Json
