import QuantumKernels.Numeric.Power

/-!
Decimals that identify a binary64 value. Every real in the value's span rounds to it; the grids
of decimals with one, two, … digits are tried in turn, and the first one with a point in the span
gives the answer. Which texts these decimals become is decided in `Decimal.Layout`.
-/

namespace QuantumKernels

/-- The number `coefficient * 10 ^ exponent`. -/
structure Decimal where
  coefficient : Nat
  exponent : Int
deriving DecidableEq, Repr

namespace Decimal

/-- Which of two equally close decimals is taken. -/
inductive Tie where
  | toEven
  | upward
deriving DecidableEq, Repr

/-- The finite magnitude `significand * 2 ^ exponent`; `narrow` says that the next smaller
magnitude is half as far away as the next larger one. -/
structure Magnitude where
  significand : Nat
  exponent : Int
  narrow : Bool
deriving DecidableEq, Repr

def Magnitude.ofBits (bits : UInt64) : Magnitude :=
  let field := (bits >>> 52 &&& 0x7ff).toNat
  let fraction := (bits &&& 0xfffffffffffff).toNat
  if field = 0 then ⟨fraction, -1074, false⟩
  else ⟨2 ^ 52 + fraction, field - 1075, fraction == 0 && field > 1⟩

/-- The reals that round to one magnitude: from `low / denominator` to `high / denominator`
around `middle / denominator`, ends included when `closed`. -/
structure Span where
  low : Nat
  middle : Nat
  high : Nat
  denominator : Nat
  closed : Bool
deriving DecidableEq, Repr

/-- The span reaches halfway to both neighbours; an even significand wins its ties. -/
def Magnitude.span (m : Magnitude) : Span :=
  let scale := 2 ^ (m.exponent - 2).toNat
  { low := (4 * m.significand - if m.narrow then 1 else 2) * scale
    middle := 4 * m.significand * scale
    high := (4 * m.significand + 2) * scale
    denominator := 2 ^ (2 - m.exponent).toNat
    closed := m.significand % 2 == 0 }

def Span.contains (s : Span) (d : Decimal) : Bool :=
  let x := d.coefficient * 10 ^ d.exponent.toNat * s.denominator
  let shift := 10 ^ (-d.exponent).toNat
  if s.closed then s.low * shift ≤ x && x ≤ s.high * shift
  else s.low * shift < x && x < s.high * shift

/-- The multiple of `10 ^ exponent` in the span that is nearest to its middle. -/
def Span.onGrid (s : Span) (tie : Tie) (exponent : Int) : Option Decimal :=
  let cell := s.denominator * 10 ^ exponent.toNat
  let value := s.middle * 10 ^ (-exponent).toNat
  let below : Decimal := ⟨value / cell, exponent⟩
  let above : Decimal := ⟨value / cell + 1, exponent⟩
  match s.contains below, s.contains above with
  | false, false => none
  | true, false => some below
  | false, true => some above
  | true, true =>
    match compare (2 * (value % cell)) cell with
    | .lt => some below
    | .gt => some above
    | .eq => match tie with
      | .upward => some above
      | .toEven => some (if below.coefficient % 2 = 0 then below else above)

/-- The exponent of the leading digit of a nonzero quotient. -/
def leadingExponent (numerator denominator : Nat) : Int :=
  if denominator ≤ numerator then (Nat.toDigits 10 (numerator / denominator)).length - 1
  else
    let places := (Nat.toDigits 10 (denominator / numerator)).length
    if denominator ≤ numerator * 10 ^ (places - 1) then 1 - places else -places

/-- Moves trailing zeros of the coefficient, at most `bound` of them, into the exponent. -/
def strip : (bound : Nat) → Decimal → Decimal
  | 0, d => d
  | bound + 1, d =>
    if d.coefficient ≠ 0 ∧ d.coefficient % 10 = 0 then strip bound ⟨d.coefficient / 10, d.exponent + 1⟩
    else d

/-- The value of a magnitude, digit for digit. -/
def exact (m : Magnitude) : Decimal :=
  ⟨m.significand * 2 ^ m.exponent.toNat * 5 ^ (-m.exponent).toNat, min m.exponent 0⟩

/-- The decimal of fewest digits that rounds to the value with these bits, sign left out. -/
def shortest (tie : Tie) (bits : UInt64) : Decimal :=
  let m := Magnitude.ofBits bits
  if m.significand = 0 then ⟨0, 0⟩
  else
    let s := m.span
    let lead := leadingExponent s.middle s.denominator
    match (List.range 17).findSome? (fun (n : Nat) => s.onGrid tie (lead - n)) with
    | some d => strip 400 d
    | none => strip 400 (exact m)

example : shortest .toEven (0.1 : Float).toBits = ⟨1, -1⟩ := by decide +kernel
example : shortest .toEven 1 = ⟨5, -324⟩ := by decide +kernel

end Decimal

end QuantumKernels
