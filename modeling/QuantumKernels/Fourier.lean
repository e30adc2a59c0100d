import QuantumKernels.Kernel.Edit
/-!
Kernels of the quantum Fourier transform on a number of qubits, and of its inverse.
-/

namespace QuantumKernels

/-- The transform, or its inverse. -/
structure Fourier where
  inverse : Bool
deriving DecidableEq, Repr

namespace Fourier

def name (g : Fourier) : String := if g.inverse then "iqft" else "qft"

/-- The names of the parameters, in order. -/
def parameterNames : List String := ["nqubits"]

/-- A half turn divided by `2 ^ distance`. The divisor is a word with one bit set by a shift, and shifts
go around the end of the word. -/
def angle (distance : Nat) : Float := Formula.pi / Float.ofNat (2 ^ (distance % 64))

/-- A Hadamard gate on a qubit, then the turns that the qubits after it control. -/
def stage (qubits i : Nat) : List Operation :=
  { name := "H", bits := [i] } ::
    ((List.range (qubits - i - 1)).map fun d =>
      { name := "CPhase", bits := [i + d + 1, i], parameters := [.real (angle (d + 1))] })

/-- The exchange of the qubits from the ends inward. -/
def reversal (qubits : Nat) : List Operation :=
  (List.range (qubits / 2)).map fun i => { name := "Swap", bits := [i, qubits - 1 - i] }

def forward (qubits : Nat) : List Operation :=
  (List.range qubits).flatMap (stage qubits) ++ reversal qubits

/-- The operation that undoes this one: the same with its angle negated. -/
def undo (op : Operation) : Operation :=
  match op.parameters with
  | p :: rest => match p.toReal? with
    | some x => { op with parameters := .real (-x) :: rest }
    | none => op
  | [] => op

def operations (g : Fourier) (qubits : Nat) : List Operation :=
  if g.inverse then (forward qubits).reverse.map undo else forward qubits

/-- The kernel for the number of qubits given as `nqubits`. -/
def generate (g : Fourier) (parameters : Dictionary Parameter) : Except KernelError Kernel :=
  match (parameters.get? "nqubits").bind Parameter.toInt? with
  | some n =>
    if 0 ≤ n.toInt then
      .ok ((Kernel.named g.name).pushAll ((g.operations n.toInt.toNat).map .leaf))
    else .error (.arity g.name "integer 'nqubits' parameters" 1 0)
  | none => .error (.arity g.name "integer 'nqubits' parameters" 1 0)

/-- The kernel for parameters given in order. -/
def generateFrom (g : Fourier) (parameters : List Parameter) : Except KernelError Kernel :=
  if parameters.length = parameterNames.length then
    g.generate (.ofList (parameterNames.zip parameters))
  else .error (.arity g.name "parameters" parameterNames.length parameters.length)

end Fourier

end QuantumKernels
