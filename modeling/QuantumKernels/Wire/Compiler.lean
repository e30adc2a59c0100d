import QuantumKernels.Wire.Literal
import QuantumKernels.Wire.Naming
import QuantumKernels.ExecutionModel
import QuantumKernels.Program
import QuantumKernels.Kernel.Edit
/-!
Between kernels and jobs: a job's text is compiled to one kernel for each experiment, and the
operations of a kernel that take part are written as a job again.
-/

namespace QuantumKernels.Wire

/-- The device and the number of shots that a written job names. -/
structure Compiler where
  device : String := "local"
  shots : Nat := defaultShots
deriving DecidableEq, Repr

namespace Compiler

def name : String := "qobject"

def description : String := "QObject JSON wire schema"

def describe : String := Text.describeRecord "Compiler" [("name", Text.describeText name)]

end Compiler

/-- The job that a source is, after normalization. A text that starts with a whole document of the
wrong shape is refused for its shape, whatever follows. -/
def Job.parse (source : String) : Except WireError Job :=
  let text := normalize source
  match Json.front? text with
  | none => .error (.parse .unreadable)
  | some document =>
    if document.isReadable Json.nestingLimit then
      match Job.documentReading Json.nestingLimit document with
      | none => .error (.parse .wrongShape)
      | some job => if (Json.read text).isSome then .ok job else .error (.parse .unreadable)
    else .error (.parse .unreadable)

/-- The kernel of an experiment. -/
def Experiment.compile (e : Experiment) : Except WireError Kernel := do
  let operations ← e.steps.mapM Step.operations
  return (Kernel.named e.name).pushAll (operations.flatten.map .leaf)

def Job.compile (job : Job) : Except WireError Program := do
  return ⟨← job.experiments.mapM Experiment.compile⟩

/-- One kernel for each experiment of a job's text. -/
def compile (source : String) : Except WireError Program := do (← Job.parse source).compile

/-- Compiles for a device, which cannot be an annealer. -/
def compileFor (device : String) (model : ExecutionModel) (source : String) : Except WireError Program :=
  match model with
  | .gateModel => compile source
  | .annealer => .error (.unsupported (.annealer Compiler.name device))

/-- The experiment that a kernel asks for, as wide as the slots and qubits in use. -/
def Experiment.ofKernel (k : Kernel) : Except WireError Experiment := do
  let steps ← k.operations.mapM Step.ofOperation
  return {
    name := k.name
    memorySlots := widthOf (steps.flatMap Step.memory)
    qubits := widthOf (steps.flatMap Step.qubits)
    steps }

/-- A job that runs each kernel so many times on at least so many qubits. -/
def Job.ofKernels (id : String) (shots qubits : Nat) (kernels : List Kernel) : Except WireError Job := do
  let experiments ← kernels.mapM Experiment.ofKernel
  return {
    id
    settings := {
      shots
      memorySlots := (experiments.map Experiment.memorySlots).foldl max 0
      qubits := (experiments.map Experiment.qubits).foldl max qubits }
    experiments }

/-- The text of a job for the compiler's device. -/
def Compiler.seal (c : Compiler) (job : Job) : String := (Envelope.toJson ⟨job, c.device⟩).compact

/-- The text of a job for one kernel. -/
def Compiler.translate (c : Compiler) (id : String) (k : Kernel) : Except WireError String := do
  return c.seal (← Job.ofKernels id c.shots k.width [k])

/-- Goes through the instructions that take part, each block before its contents. -/
def visit [Monad m] (f : σ → Instruction → m σ) (start : σ) (k : Kernel) : m σ :=
  k.view.preorder.foldlM f start

end QuantumKernels.Wire
