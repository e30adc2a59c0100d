import QuantumKernels.Wire.Error
/-!
Outcome keys: hexadecimal numbers whose bit `i` is the outcome in classical slot `i`, against
texts of zeros and ones with slot `i` at position `i`.
-/

namespace QuantumKernels.Wire

/-- The number of slots that a key can hold. -/
def outcomeBits : Nat := 128

/-- Drops a pair of characters from the front as often as it stands there. -/
def dropPairs (a b : Char) : List Char → List Char
  | x :: y :: rest => if x = a ∧ y = b then dropPairs a b rest else x :: y :: rest
  | s => s

/-- The digits of a key. -/
def keyDigits (key : String) : List Char :=
  let digits := dropPairs '0' 'X' (dropPairs '0' 'x' (Text.trimChars key.toList))
  if digits.isEmpty then ['0'] else digits

/-- The lowest bits of a number, lowest first. -/
def bitChars (value width : Nat) : List Char :=
  (List.range width).map fun i => if value.testBit i then '1' else '0'

/-- The outcome that a key stands for, in so many slots. -/
def readOutcome (key : String) (width : Nat) : Except ParseFault String :=
  match Decimal.readNatural 16 (2 ^ outcomeBits - 1) (keyDigits key) with
  | .error cause => .error (.outcomeKey key cause)
  | .ok value =>
    if width < outcomeBits ∧ value >>> width ≠ 0 then .error (.wideOutcome key width)
    else .ok (String.ofList (bitChars value width))

/-- The number with these bits, lowest first; the first one stands in slot `slot`. -/
def bitsValue? (slot : Nat) : List Char → Option Nat
  | [] => some 0
  | c :: rest =>
    if c = '0' then (bitsValue? (slot + 1) rest).map (2 * ·)
    else if c = '1' ∧ slot < outcomeBits then (bitsValue? (slot + 1) rest).map (2 * · + 1)
    else none

/-- The key of an outcome. -/
def outcomeKey (bits : String) : Except ParseFault String :=
  match bitsValue? 0 bits.toList with
  | some value => .ok (String.ofList ('0' :: 'x' :: Nat.toDigits 16 value))
  | none => .error (.notBits bits)

end QuantumKernels.Wire
