import QuantumKernels.Accelerator.Basic
/-!
Stages around an accelerator. A stage stands before the rest of the chain and may run it any number
of times, on any kernel and into any buffer; the outermost stage comes first.
-/

namespace QuantumKernels

/-- The rates of error of a device, on each bit and on each pair of coupled bits. -/
structure ErrorRates where
  oneBit : List Float
  twoBit : List Float
deriving DecidableEq, Repr

/-- What a stage does, given the error rates of the device at the end of the chain and the rest of
the chain. -/
structure Stage (σ : Type) where
  name : String
  around : (rates : ErrorRates) → (rest : Kernel → Run σ Unit) → Kernel → Run σ Unit

namespace Accelerator

variable {σ : Type}

def errorRates (a : Accelerator σ) : ErrorRates := ⟨a.oneBitRates, a.twoBitRates⟩

/-- The chain of these stages in front of a device. -/
def chain (base : Accelerator σ) (stages : List (Stage σ)) : Kernel → Run σ Unit :=
  stages.foldr (fun stage rest => stage.around base.errorRates rest) base.execute

/-- The name with each stage around the rest. -/
def chainName (base : Accelerator σ) (stages : List (Stage σ)) : String :=
  stages.foldr (fun stage inner => stage.name ++ "[" ++ inner ++ "]") base.name

/-- The device with stages around it; without any, batches are the device's own. -/
def decorate (base : Accelerator σ) (stages : List (Stage σ)) : Accelerator σ :=
  { base with
    name := base.chainName stages
    execute := base.chain stages
    executeBatch := if stages.isEmpty then base.executeBatch else runEach (base.chain stages) }

/-- Changes parts in order, up to the first one that refuses; beside the outcome stand all parts as
they then are. -/
def configureInOrder {α ε : Type} (configure : α → Except ε α) : List α → Except ε Unit × List α
  | [] => (.ok (), [])
  | a :: rest =>
    match configure a with
    | .error e => (.error e, a :: rest)
    | .ok a =>
      let (outcome, rest) := configureInOrder configure rest
      (outcome, a :: rest)

def describeDecorated (base : Accelerator σ) (stages : List (Stage σ)) : String :=
  Text.describeRecord "DecoratedAccelerator" [
    ("base", Text.describeText base.name),
    ("stages", Text.describeList Text.describeText (stages.map Stage.name))]

end Accelerator

end QuantumKernels
