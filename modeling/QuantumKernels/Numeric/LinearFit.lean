import QuantumKernels.Numeric.Scalar
import QuantumKernels.Numeric.Power
/-!
The least-squares line through points, and where it meets the axis.
-/

namespace QuantumKernels

namespace LinearFit

/-- Why points have no line. -/
inductive Fault where
  | tooFew (points : Nat)
  | notDistinct
deriving DecidableEq, Repr

def Fault.message : Fault → String
  | tooFew n => s!"linear fit needs two points, got {n}"
  | notDistinct => "noise scales are not distinct"

variable {α : Type} [Scalar α]

/-- A spread smaller than this counts as none. -/
def leastSpread : α := Scalar.one / Scalar.ofNat (2 ^ 52)

/-- The value at zero of the line that fits best. -/
def intercept (points : List (α × α)) : Except Fault α :=
  if points.length < 2 then .error (.tooFew points.length)
  else
    let n : α := Scalar.ofNat points.length
    let x := Scalar.sum (points.map fun p => p.1)
    let y := Scalar.sum (points.map fun p => p.2)
    let xy := Scalar.sum (points.map fun p => p.1 * p.2)
    let xx := Scalar.sum (points.map fun p => p.1 * p.1)
    let spread := n * xx - x * x
    if Scalar.abs spread < leastSpread then .error .notDistinct
    else
      let slope := (n * xy - x * y) / spread
      .ok ((y - slope * x) / n)

end LinearFit

end QuantumKernels
