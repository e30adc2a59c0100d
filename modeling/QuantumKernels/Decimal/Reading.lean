import QuantumKernels.Decimal.Numeral
import QuantumKernels.Text.Blank
/-!
Numbers and truth values in option texts, with the cause when a text is none.
-/

namespace QuantumKernels

/-- Why a text is not the value wanted. -/
inductive Misread where
  | emptyInteger
  | invalidDigit
  | tooLarge
  | tooSmall
  | emptyReal
  | invalidReal
  | notTruthValue
deriving DecidableEq, Repr

def Misread.message : Misread → String
  | emptyInteger => "cannot parse integer from empty string"
  | invalidDigit => "invalid digit found in string"
  | tooLarge => "number too large to fit in target type"
  | tooSmall => "number too small to fit in target type"
  | emptyReal => "cannot parse float from empty string"
  | invalidReal => "invalid float literal"
  | notTruthValue => "provided string was not \x60true\x60 or \x60false\x60"

namespace Decimal

/-- The value of one digit in a base up to sixteen. -/
def digitValue? (base : Nat) (c : Char) : Option Nat :=
  let value :=
    if '0' ≤ c ∧ c ≤ '9' then c.toNat - '0'.toNat
    else if 'a' ≤ c ∧ c ≤ 'f' then c.toNat - 'a'.toNat + 10
    else if 'A' ≤ c ∧ c ≤ 'F' then c.toNat - 'A'.toNat + 10
    else base
  if value < base then some value else none

/-- Digits from left to right; the first one that is no digit or leads past the limit decides. -/
def readDigits (base limit : Nat) (overflow : Misread) (start : Nat) :
    List Char → Except Misread Nat
  | [] => .ok start
  | c :: rest =>
    match digitValue? base c with
    | none => .error .invalidDigit
    | some d =>
      if limit < base * start + d then .error overflow
      else readDigits base limit overflow (base * start + d) rest

/-- A natural number of at most `limit`, with an optional plus sign. -/
def readNatural (base limit : Nat) : List Char → Except Misread Nat
  | [] => .error .emptyInteger
  | ['+'] => .error .invalidDigit
  | '+' :: rest => readDigits base limit .tooLarge 0 rest
  | cs => readDigits base limit .tooLarge 0 cs

/-- An integer of `bits` bits, with an optional sign. -/
def readInteger (bits : Nat) : List Char → Except Misread Int
  | ['-'] => .error .invalidDigit
  | '-' :: rest => (readDigits 10 (2 ^ (bits - 1)) .tooSmall 0 rest).map fun n => -n
  | cs => (readNatural 10 (2 ^ (bits - 1) - 1) cs).map Int.ofNat

/-- The special values by name, in any case of letters, else a numeral. -/
def readUnsignedReal (cs : List Char) : Option Float :=
  match String.ofList (cs.map Char.toLower) with
  | "inf" | "infinity" => some (1 / 0)
  | "nan" => some (0 / 0)
  | _ => (Numeral.read cs).map Numeral.toFloat

def readReal : List Char → Except Misread Float
  | [] => .error .emptyReal
  | '-' :: rest => (readUnsignedReal rest).elim (.error .invalidReal) fun x => .ok (-x)
  | '+' :: rest => (readUnsignedReal rest).elim (.error .invalidReal) .ok
  | cs => (readUnsignedReal cs).elim (.error .invalidReal) .ok

end Decimal

def readTruthValue (s : String) : Except Misread Bool :=
  if s = "true" then .ok true else if s = "false" then .ok false else .error .notTruthValue

end QuantumKernels
