/-!
What kind of machine runs kernels.
-/

namespace QuantumKernels

inductive ExecutionModel where
  | gateModel
  | annealer
deriving DecidableEq, Inhabited, Repr

namespace ExecutionModel

def print : ExecutionModel → String
  | gateModel => "gate-model"
  | annealer => "annealer"

def keyword : ExecutionModel → String
  | gateModel => "gate_model"
  | annealer => "annealer"

end ExecutionModel

end QuantumKernels
