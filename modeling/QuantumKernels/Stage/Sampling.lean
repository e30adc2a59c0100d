import QuantumKernels.Accelerator.Decorated
/-!
Repeated sampling: the rest of the chain runs a number of times, and every run's outcomes are
added to the buffer as soon as it has succeeded.
-/

namespace QuantumKernels.Sampling

def name : String := "improved-sampling"

def key : String := "sampler-n-execs"

def specs : List OptionSpec := [⟨key, "Number of times to execute each kernel (default 5)"⟩]

/-- Runs so many times more. -/
def repeated {σ : Type} (rest : Run σ Unit) : (times : Nat) → Run σ Unit
  | 0 => return ()
  | times + 1 => do
    let current ← Run.buffer
    let own ← Run.onOwn (.new current.name current.size) rest
    Run.modifyBuffer (·.absorb own)
    repeated rest times

def stage (σ : Type) (times : Nat) : Stage σ where
  name := name
  around _ rest kernel := do
    repeated (rest kernel) times
    Run.modifyBuffer (·.setInfo key (.ofNat times))

/-- The number of runs that the options set. -/
def read (options : Options) : Except DeviceError (Option Nat) := do
  match ← (options.read key (Options.natural 64)).mapError .registry with
  | some 0 => .error (.registry (.invalidOption key "must be at least 1"))
  | times => .ok times

end QuantumKernels.Sampling
