import QuantumKernels.Json.Basic
import QuantumKernels.Decimal.Numeral
/-!
Numbers in documents. A numeral without point and exponent that fits a machine word is an
integer. Any other is a real: its leading digits, as far as they fit a word, are scaled by one
power of ten, so a numeral of many digits may come out next to the nearest double.
-/

namespace QuantumKernels.Json

open Decimal (Numeral digitsValue)

/-- The digits kept of a numeral, the power of ten they are scaled by, and whether digits of the
integer part have been dropped. -/
structure Kept where
  significand : Nat
  exponent : Int
  full : Bool
deriving DecidableEq, Repr

def wordLimit : Nat := 2 ^ 64 - 1

/-- One more digit before the point. Once a word is full, digits only raise the exponent. -/
def Kept.addWhole (k : Kept) (c : Char) : Kept :=
  let next := digitsValue k.significand [c]
  if k.full || wordLimit < next then ⟨k.significand, k.exponent + 1, true⟩
  else ⟨next, k.exponent, false⟩

/-- One more digit after the point. Once a word is full, digits are dropped. -/
def Kept.addFraction (k : Kept) (c : Char) : Kept :=
  let next := digitsValue k.significand [c]
  if k.full || wordLimit < next then ⟨k.significand, k.exponent, true⟩
  else ⟨next, k.exponent - 1, false⟩

def Kept.ofNumeral (n : Numeral) : Kept :=
  let whole := n.whole.foldl Kept.addWhole ⟨0, 0, false⟩
  let all := (n.fraction.getD []).foldl Kept.addFraction { whole with full := false }
  { all with exponent := all.exponent + n.exponent.getD 0 }

def powerOfTen (n : Nat) : Float := Float.ofScientific 1 false n

/-- Division by `10 ^ n`, in steps that stay within the powers a double can hold. -/
def scaleDown (x : Float) (n : Nat) : Float :=
  if h : n ≤ 308 then x / powerOfTen n
  else if x == 0 then x
  else scaleDown (x / powerOfTen 308) (n - 308)
termination_by n

/-- The value of the kept digits; none when it exceeds every double. -/
def Kept.value (k : Kept) : Option Float :=
  let x := Float.ofNat k.significand
  match k.exponent with
  | .ofNat n =>
    if n ≤ 308 then
      let y := x * powerOfTen n
      if y.isInf then none else some y
    else if x == 0 then some x else none
  | .negSucc n => some (scaleDown x (n + 1))

def realOfNumeral (negative : Bool) (n : Numeral) : Json :=
  match (Kept.ofNumeral n).value with
  | none => .unreadable
  | some x => .real (if negative then -x else x)

/-- Whether a numeral is one of the document grammar: no empty part and no padding zero. -/
def isStrict (n : Numeral) : Bool :=
  (match n.whole with
    | [] => false
    | ['0'] => true
    | c :: _ => c != '0')
  && n.fraction != some []

/-- An integer if it fits a word, signed when negative; zero keeps its sign only as a real. -/
def ofNumeral (negative : Bool) (n : Numeral) : Json :=
  if n.fraction.isSome || n.exponent.isSome then realOfNumeral negative n
  else
    let value := digitsValue 0 n.whole
    if negative then
      if value ≠ 0 ∧ value ≤ 2 ^ 63 then .int (-value) else realOfNumeral true n
    else if value ≤ wordLimit then .int value else realOfNumeral false n

/-- The number a text is, if it is one. -/
def numberOfChars (cs : List Char) : Option Json :=
  let (negative, digits) := match cs with
    | '-' :: rest => (true, rest)
    | cs => (false, cs)
  match Numeral.read digits with
  | some n => if isStrict n then some (ofNumeral negative n) else none
  | none => none

end QuantumKernels.Json
