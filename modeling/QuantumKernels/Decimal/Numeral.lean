import QuantumKernels.Decimal.Shortest
/-!
Numerals: digits with an optional point and exponent, without a sign. `Numeral.readFront` takes
the longest numeral at the front of a text; `Numeral.toFloat` is the value rounded to nearest.
-/

namespace QuantumKernels.Decimal

structure Numeral where
  whole : List Char
  /-- the digits after the point, if there is a point -/
  fraction : Option (List Char)
  exponent : Option Int
deriving DecidableEq, Repr

/-- The value of a run of digits that follow `start`. -/
def digitsValue (start : Nat) (digits : List Char) : Nat :=
  digits.foldl (fun n c => 10 * n + (c.toNat - '0'.toNat)) start

/-- Whether a minus sign leads, and what follows the sign if there is one. -/
def takeSign : List Char → Bool × List Char
  | '+' :: rest => (false, rest)
  | '-' :: rest => (true, rest)
  | cs => (false, cs)

/-- An exponent counts only when a digit follows its mark and sign. -/
def readExponent : List Char → Option (Int × List Char)
  | [] => none
  | mark :: rest =>
    let (negative, rest) := takeSign rest
    let digits := rest.takeWhile Char.isDigit
    if (mark = 'e' ∨ mark = 'E') ∧ digits ≠ [] then
      let value : Int := digitsValue 0 digits
      some (if negative then -value else value, rest.dropWhile Char.isDigit)
    else none

def readPower (whole : List Char) (fraction : Option (List Char)) (rest : List Char) :
    Numeral × List Char :=
  match readExponent rest with
  | some (exponent, rest) => (⟨whole, fraction, some exponent⟩, rest)
  | none => (⟨whole, fraction, none⟩, rest)

/-- The longest numeral at the front: digits on at least one side of the point. -/
def Numeral.readFront (cs : List Char) : Option (Numeral × List Char) :=
  let whole := cs.takeWhile Char.isDigit
  match cs.dropWhile Char.isDigit with
  | '.' :: rest =>
    let fraction := rest.takeWhile Char.isDigit
    if whole.isEmpty && fraction.isEmpty then none
    else some (readPower whole (some fraction) (rest.dropWhile Char.isDigit))
  | rest => if whole.isEmpty then none else some (readPower whole none rest)

theorem length_takeSign (cs : List Char) : (takeSign cs).2.length ≤ cs.length := by
  unfold takeSign
  split <;> simp

theorem length_dropWhile (p : Char → Bool) (cs : List Char) :
    (cs.dropWhile p).length ≤ cs.length := (List.dropWhile_suffix p).length_le

theorem length_readExponent {cs rest : List Char} {e : Int} (h : readExponent cs = some (e, rest)) :
    rest.length ≤ cs.length := by
  cases cs with
  | nil => simp [readExponent] at h
  | cons mark tail =>
    have h1 := length_takeSign tail
    have h2 := length_dropWhile Char.isDigit (takeSign tail).2
    simp only [readExponent] at h
    split at h
    · simp only [Option.some.injEq, Prod.mk.injEq] at h
      rw [← h.2, List.length_cons]
      omega
    · simp at h

theorem length_readPower (whole : List Char) (fraction : Option (List Char)) (rest : List Char) :
    (readPower whole fraction rest).2.length ≤ rest.length := by
  unfold readPower
  split
  · rename_i h; exact length_readExponent h
  · exact Nat.le_refl _

/-- A numeral has at least one character. -/
theorem Numeral.length_readFront {cs rest : List Char} {n : Numeral}
    (h : Numeral.readFront cs = some (n, rest)) : rest.length < cs.length := by
  have parts : (cs.takeWhile Char.isDigit).length + (cs.dropWhile Char.isDigit).length
      = cs.length := by
    rw [← List.length_append, List.takeWhile_append_dropWhile]
  unfold Numeral.readFront at h
  dsimp only at h
  split at h
  · rename_i tail hd
    split at h
    · simp at h
    · have h1 := length_readPower (cs.takeWhile Char.isDigit) (some (tail.takeWhile Char.isDigit))
        (tail.dropWhile Char.isDigit)
      have h2 := length_dropWhile Char.isDigit tail
      rw [hd, List.length_cons] at parts
      rw [Option.some.inj h] at h1
      dsimp only at h1
      omega
  · split at h
    · simp at h
    · rename_i hw
      have h1 := length_readPower (cs.takeWhile Char.isDigit) none (cs.dropWhile Char.isDigit)
      have h2 : 0 < (cs.takeWhile Char.isDigit).length := by
        simpa [List.length_pos_iff, List.isEmpty_iff] using hw
      rw [Option.some.inj h] at h1
      dsimp only at h1
      omega

/-- A text that is one numeral. -/
def Numeral.read (cs : List Char) : Option Numeral :=
  match Numeral.readFront cs with
  | some (n, []) => some n
  | _ => none

def Numeral.toDecimal (n : Numeral) : Decimal :=
  let fraction := n.fraction.getD []
  ⟨digitsValue 0 (n.whole ++ fraction), n.exponent.getD 0 - fraction.length⟩

/-- The double nearest to a decimal, an even significand winning ties. Decimals far outside the
range of doubles need no arithmetic. -/
def toFloat (d : Decimal) : Float :=
  let lead := (Nat.toDigits 10 d.coefficient).length + d.exponent
  if d.coefficient = 0 || lead < -400 then 0
  else if 400 < lead then 1 / 0
  else Float.ofScientific d.coefficient (d.exponent < 0) d.exponent.natAbs

def Numeral.toFloat (n : Numeral) : Float := n.toDecimal.toFloat

end QuantumKernels.Decimal
