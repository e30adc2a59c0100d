import QuantumKernels.Text.Described
import QuantumKernels.Kernel.Operation
import QuantumKernels.Decimal.Reading
/-!
What can go wrong between kernels and their wire form.
-/

namespace QuantumKernels

def Parameter.describe : Parameter → String
  | int n => s!"Int({n.toInt})"
  | real x => "Double(" ++ Decimal.Layout.described.render x ++ ")"
  | text s => "Str(" ++ Text.describeText s ++ ")"
  | complex re im =>
    "Complex(" ++ Text.describeRecord "Complex"
      [("re", Decimal.Layout.described.render re), ("im", Decimal.Layout.described.render im)] ++ ")"

/-- A complex number as a sum, each part with its sign in front. -/
def printComplex (re im : Float) : String :=
  let size (x : Float) := Decimal.Layout.plain.render (if x < 0 then 0 - x else x)
  (if re < 0 then "-" else "") ++ size re ++ (if im < 0 then "-" else "+") ++ size im ++ "i"

namespace Wire

/-- Why a text is no wire form. -/
inductive ParseFault where
  | unreadable
  | wrongShape
  | slotCount (qubits slots : Nat)
  | parameterCount (name : String) (expected got : Nat)
  | outcomeKey (key : String) (cause : Misread)
  | wideOutcome (key : String) (width : Nat)
  | notBits (text : String)
deriving DecidableEq, Repr

def ParseFault.message : ParseFault → String
  | unreadable => "QObject"
  | wrongShape => "QObject: data did not match any variant of untagged enum QObjectDocument"
  | slotCount qubits slots => s!"measure over {qubits} qubits names {slots} memory slots"
  | parameterCount name expected got => s!"'{name}' expects {expected} params, got {got}"
  | outcomeKey key cause => s!"outcome key '{key}': {cause.message}"
  | wideOutcome key width => s!"outcome key '{key}' does not fit in {width} bits"
  | notBits text => s!"'{text}' is not an encodable bitstring"

/-- What has no wire form. -/
inductive Inexpressible where
  | slot (parameters : List Parameter)
  | symbolic (text operation : String)
  | complex (re im : Float) (operation : String)
  | annealer (compiler device : String)
  /-- a reason of a visitor's own -/
  | other (text : String)
deriving DecidableEq, Repr

def Inexpressible.message : Inexpressible → String
  | slot parameters => "measurement without an integer classical slot: "
      ++ Text.describeList Parameter.describe parameters
  | symbolic text operation =>
    s!"symbolic parameter '{text}' on {operation}; evaluate the kernel first"
  | complex re im operation => s!"complex parameter {printComplex re im} on {operation}"
  | annealer compiler device => s!"{compiler} cannot target annealer '{device}'"
  | other text => text

end Wire

inductive WireError where
  | parse (fault : Wire.ParseFault)
  | unsupported (what : Wire.Inexpressible)
  | kernel (error : KernelError)
deriving DecidableEq, Repr

def WireError.message : WireError → String
  | parse fault => "Parse error: " ++ fault.message
  | unsupported what => "Unsupported: " ++ what.message
  | kernel error => error.message

end QuantumKernels
