import QuantumKernels.Graph.Connectivity
/-!
The terms of an annealing kernel and the graph they make up: a term on two different bits is a
coupler, one on the same bit twice is a bias. The bits of the kernel are the vertices, so its width is
taken to be less than `2 ^ 32`.
-/

namespace QuantumKernels

/-- The name of the operations that are terms. -/
def termName : String := "dw-qmi"

/-- A weight on a pair of bits. -/
structure Term where
  first : Nat
  second : Nat
  weight : Parameter
deriving DecidableEq, Repr

def Operation.term? (op : Operation) : Option Term :=
  match op.bits, op.parameters with
  | [a, b], w :: _ => if op.name = termName then some ⟨a, b, w⟩ else none
  | _, _ => none

namespace Kernel

def terms (k : Kernel) : List Term := k.operations.filterMap Operation.term?

def biases (k : Kernel) : List Term := k.terms.filter fun t => t.first == t.second

def couplers (k : Kernel) : List Term := k.terms.filter fun t => t.first != t.second

/-- The weight of a term, which has to be a number. -/
def weightOf (k : Kernel) (t : Term) : Except KernelError Float :=
  match t.weight.toReal? with
  | some w => .ok w
  | none => .error (.unsupported "to_graph"
      s!"'{k.name}' with non-numeric {termName} weight '{t.weight.print}'")

/-- Notes a bias at its vertex, which is there as long as the graph has room for all bits. -/
def addBias (k : Kernel) (g : ConnectivityGraph) (t : Term) : Except KernelError ConnectivityGraph := do
  let w ← k.weightOf t
  return { g with vertices := g.vertices.modify t.first fun m => m.insert "bias" (.real w) }

def addCoupler (k : Kernel) (g : ConnectivityGraph) (t : Term) :
    Except KernelError ConnectivityGraph := do
  g.addEdge t.first t.second (← k.weightOf t)

/-- One vertex for each bit up to the largest, then the biases, then the couplers. -/
def connectivity (k : Kernel) : Except KernelError ConnectivityGraph := do
  let g ← k.biases.foldlM k.addBias (.ofOrder k.width)
  k.couplers.foldlM k.addCoupler g

end Kernel

end QuantumKernels
