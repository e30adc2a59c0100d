import QuantumKernels.Graph.Connectivity
import QuantumKernels.Decimal.Reading
/-!
Embeddings of a problem graph into a hardware graph. An embedding gives each problem vertex a chain
of hardware vertices; the one here shifts every vertex by the same offset.
-/

namespace QuantumKernels

/-- Problem vertices, ascending, each with its chain. -/
abbrev Embedding := List (Nat × List Nat)

namespace Embedding

def shiftName : String := "trivial"

/-- The offset asked for, zero unless given. -/
def offset (options : Dictionary String) : Except KernelError Nat :=
  match options.get? "offset" with
  | none => .ok 0
  | some raw =>
    match Decimal.readNatural 10 (2 ^ 64 - 1) (Text.trim raw).toList with
    | .ok n => .ok n
    | .error e => .error (.formula raw e.message)

/-- Succeeds when the shifted vertices exist and every problem edge has a hardware edge. -/
def shift (problem hardware : ConnectivityGraph) (options : Dictionary String) :
    Except KernelError Embedding := do
  let offset ← offset options
  if hardware.order < problem.order + offset then
    .error (.unsupported "embed"
      s!"{problem.order} problem vertices at offset {offset} on {hardware.order} hardware vertices")
  else
    match problem.edgeList.find? fun e => !hardware.hasEdge (e.source + offset) (e.target + offset) with
    | some e => .error (.unsupported "embed"
        s!"problem edge ({e.source}, {e.target}) has no hardware coupler")
    | none => .ok ((List.range problem.order).map fun v => (v, [v + offset]))

end Embedding

end QuantumKernels
