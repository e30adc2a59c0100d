import QuantumKernels.Decimal.Shortest
/-!
Numbers that estimates are computed with. The estimates are written once for every kind of number:
they run on floating-point reals and are reasoned about on exact ones.
-/

namespace QuantumKernels

/-- Arithmetic and order, with the image of every natural number and the way back to them, and the
number that adding to changes nothing. -/
class Scalar (α : Type) extends Add α, Sub α, Mul α, Div α, Neg α, LT α, LE α, BEq α where
  ofNat : Nat → α
  /-- the nearest natural number, a half going up -/
  nearest : α → Nat
  /-- where a sum starts -/
  neutral : α
  decidableLT : DecidableRel (α := α) (· < ·)
  decidableLE : DecidableRel (α := α) (· ≤ ·)

instance instDecidableScalarLT {α : Type} [Scalar α] : DecidableRel (α := α) (· < ·) :=
  Scalar.decidableLT

instance instDecidableScalarLE {α : Type} [Scalar α] : DecidableRel (α := α) (· ≤ ·) :=
  Scalar.decidableLE

/-- The natural number nearest to a positive real, read off its bits. A half goes up, and the
greatest word stands for all that is greater. -/
def nearestWord (x : Float) : Nat :=
  if 0 < x then
    let m := Decimal.Magnitude.ofBits x.toBits
    let one := 2 ^ (-m.exponent).toNat
    min (2 ^ 64 - 1) ((2 * m.significand * 2 ^ m.exponent.toNat + one) / (2 * one))
  else 0

/-- A sum of reals starts from the negative zero, so that one of negative zeros is again one. -/
instance : Scalar Float where
  ofNat := Float.ofNat
  nearest := nearestWord
  neutral := -0
  decidableLT := inferInstance
  decidableLE := inferInstance

namespace Scalar

variable {α : Type} [Scalar α]

def zero : α := ofNat 0

def one : α := ofNat 1

def abs (x : α) : α := if x < zero then -x else x

/-- The sum from left to right. -/
def sum (l : List α) : α := l.foldl (· + ·) neutral

end Scalar

end QuantumKernels
