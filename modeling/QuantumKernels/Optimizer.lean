import QuantumKernels.Kernel.Cancellation
import QuantumKernels.Options
import QuantumKernels.Program
/-!
The optimizer: cancellation with a limit on the number of sweeps that is set by an option.
-/

namespace QuantumKernels

structure Optimizer where
  tries : Nat
  tries_pos : 0 < tries := by decide
deriving DecidableEq, Repr

namespace Optimizer

def default : Optimizer := ⟨3, by decide⟩

/-- At most so many sweeps, at least one. -/
def ofTries (n : Nat) : Optimizer := ⟨max n 1, by omega⟩

def name : String := "circuit-optimizer"

def description : String :=
  "Cancels adjacent self-inverse gate pairs and drops disabled instructions"

def triesKey : String := "circuit-opt-n-tries"

def specs : List OptionSpec := [⟨triesKey, "Maximum number of cancellation sweeps per kernel"⟩]

/-- Takes over the limit if it is set to a positive number, and says whether it was. -/
def handleOptions (o : Optimizer) (options : Options) : Optimizer × Bool :=
  match options.read triesKey (Options.natural 64) with
  | .ok (some n) => if h : 0 < n then (⟨n, h⟩, true) else (o, false)
  | _ => (o, false)

def transform (o : Optimizer) (p : Program) : Program := ⟨p.kernels.map (Kernel.optimize o.tries)⟩

end Optimizer

end QuantumKernels
