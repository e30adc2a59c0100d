import QuantumKernels.Graph.Annealing
import QuantumKernels.Program
/-!
The known kinds of operations in the two families, and operations built to fit them. Names are
matched without regard to case and written as in the table; a name that is not in the table makes an
operation of its own kind.
-/

namespace QuantumKernels

/-- How many bits and parameters a kind of operation takes. -/
structure OperationKind where
  name : String
  bits : Nat
  parameters : Nat
  analog : Bool := false
deriving DecidableEq, Repr

namespace Kind

def annealName : String := "anneal"

/-- The kinds of a family. -/
def table : Kind → List OperationKind
  | gate => [⟨"I", 1, 0, false⟩, ⟨"H", 1, 0, false⟩, ⟨"X", 1, 0, false⟩, ⟨"Y", 1, 0, false⟩,
      ⟨"Z", 1, 0, false⟩, ⟨"S", 1, 0, false⟩, ⟨"Sdg", 1, 0, false⟩, ⟨"T", 1, 0, false⟩,
      ⟨"Tdg", 1, 0, false⟩, ⟨"Rx", 1, 1, false⟩, ⟨"Ry", 1, 1, false⟩, ⟨"Rz", 1, 1, false⟩,
      ⟨"U", 1, 3, false⟩, ⟨"CNOT", 2, 0, false⟩, ⟨"CY", 2, 0, false⟩, ⟨"CZ", 2, 0, false⟩,
      ⟨"CH", 2, 0, false⟩, ⟨"CRZ", 2, 1, false⟩, ⟨"CPhase", 2, 1, false⟩, ⟨"Swap", 2, 0, false⟩,
      ⟨Operation.measureName, 1, 1, false⟩]
  | anneal => [⟨termName, 2, 1, true⟩, ⟨annealName, 0, 4, true⟩]

def find? (family : Kind) (name : String) : Option OperationKind :=
  family.table.find? fun k => Text.sameIgnoringCase k.name name

/-- The name a family is known by. -/
def familyName : Kind → String := keyword

end Kind

namespace OperationKind

/-- The parameters taken when none are given. -/
def defaults (k : OperationKind) : List Parameter :=
  if k.name = Operation.measureName then [.int 0]
  else if k.name = Kind.annealName then [.real 0, .real 0, .real 0, .text "forward"]
  else List.replicate k.parameters (.real 0)

def build (k : OperationKind) (bits : List Nat) (parameters : List Parameter) :
    Except KernelError Operation :=
  let parameters := if parameters.isEmpty then k.defaults else parameters
  if bits.length ≠ k.bits then .error (.arity k.name "bits" k.bits bits.length)
  else if parameters.length ≠ k.parameters then
    .error (.arity k.name "parameters" k.parameters parameters.length)
  else .ok { name := k.name, bits, parameters, analog := k.analog }

end OperationKind

/-- An operation of a family. -/
def Kind.build (family : Kind) (name : String) (bits : List Nat) (parameters : List Parameter) :
    Except KernelError Operation :=
  match family.find? name with
  | some k => k.build bits parameters
  | none => .ok { name, bits, parameters }

end QuantumKernels
