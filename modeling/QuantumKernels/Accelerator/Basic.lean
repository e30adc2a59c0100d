import QuantumKernels.Accelerator.Error
import QuantumKernels.Buffer.Basic
import QuantumKernels.ExecutionModel
import QuantumKernels.Kernel.Basic
import QuantumKernels.Text.Described
/-!
Accelerators: what runs a kernel and records the outcomes in a buffer. A run acts on a buffer and
on whatever state `σ` lies outside; both are kept when it fails.
-/

namespace QuantumKernels

/-- An action on a buffer and on the state outside. -/
abbrev Run (σ : Type) (α : Type) := ExceptT DeviceError (StateM (Buffer × σ)) α

namespace Run

variable {σ α : Type}

def buffer : Run σ Buffer := return (← get).1

def modifyBuffer (f : Buffer → Buffer) : Run σ Unit := modify fun (b, s) => (f b, s)

/-- Does the action on a buffer of its own, which is then given; the current one stays as it is. -/
def onOwn (own : Buffer) (action : Run σ Unit) : Run σ Buffer :=
  ExceptT.mk fun (b, s) =>
    match action.run (own, s) with
    | (.ok (), (own, s)) => (.ok own, (b, s))
    | (.error e, (_, s)) => (.error e, (b, s))

/-- Does the action; a failure becomes its value. -/
def attempt (action : Run σ α) : Run σ (Except DeviceError α) :=
  ExceptT.mk fun s => match action.run s with
    | (outcome, s) => (.ok outcome, s)

end Run

/-- Runs kernels one after another, each into a buffer of its own named after it and as wide as
the current one; when all have succeeded they become the current buffer's children. -/
def runEach {σ : Type} (execute : Kernel → Run σ Unit) (kernels : List Kernel) : Run σ (List Buffer) := do
  let size := (← Run.buffer).size
  let results ← kernels.mapM fun k => Run.onOwn (.new k.name size) (execute k)
  Run.modifyBuffer (·.attach results)
  return results

structure Accelerator (σ : Type) where
  name : String
  description : String := ""
  model : ExecutionModel := .gateModel
  /-- the size of a buffer when none is asked for -/
  defaultSize : Nat
  accepts : Nat → Bool := fun size => 0 < size
  oneBitRates : List Float := []
  twoBitRates : List Float := []
  /-- pairs of coupled qubits; none means that all are -/
  connectivity : List (Nat × Nat) := []
  isRemote : Bool := false
  /-- names of the transformations a kernel goes through before it runs -/
  passes : List String := []
  execute : Kernel → Run σ Unit
  executeBatch : List Kernel → Run σ (List Buffer) := runEach execute

namespace Accelerator

variable {σ : Type}

/-- An empty buffer of a size that the accelerator accepts. -/
def createBuffer (a : Accelerator σ) (name : String) (size : Nat := a.defaultSize) :
    Except DeviceError Buffer :=
  if a.accepts size then .ok (.new name size) else .error (.bufferSize size a.name)

def describeModel : ExecutionModel → String
  | .gateModel => "GateModel"
  | .annealer => "Annealer"

def describe (a : Accelerator σ) : String :=
  Text.describeRecord "Accelerator" [
    ("name", Text.describeText a.name),
    ("type", describeModel a.model),
    ("remote", if a.isRemote then "true" else "false")]

end Accelerator

end QuantumKernels
