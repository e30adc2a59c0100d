import QuantumKernels.Graph.Dependency
import QuantumKernels.Graph.Annealing
/-!
The graph of a kernel: dependencies of gates, or connections of an annealing problem.
-/

namespace QuantumKernels

inductive KernelGraph where
  | dependency (graph : DependencyGraph)
  | connectivity (graph : ConnectivityGraph)
deriving Repr

namespace KernelGraph

def order : KernelGraph → Nat
  | dependency g => g.operations.length
  | connectivity g => g.order

def size : KernelGraph → Nat
  | dependency g => g.edges.length
  | connectivity g => g.size

/-- Only dependencies have a depth. -/
def depth : KernelGraph → Except KernelError Nat
  | dependency g => .ok g.depth
  | connectivity _ => .error (.unsupported "depth" "an undirected graph")

def print : KernelGraph → String
  | dependency g => g.print
  | connectivity g => g.print

end KernelGraph

namespace Kernel

def graph (k : Kernel) : Except KernelError KernelGraph :=
  match k.header.kind with
  | .gate => .ok (.dependency (.ofKernel k))
  | .anneal => k.connectivity.map .connectivity

def depth (k : Kernel) : Except KernelError Nat :=
  match k.header.kind with
  | .gate => .ok (DependencyGraph.ofKernel k).depth
  | .anneal => .error (.unsupported "depth" "an undirected graph")

end Kernel

end QuantumKernels
