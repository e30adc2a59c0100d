import QuantumKernels.Decimal.Layout
import QuantumKernels.Decimal.Reading
import QuantumKernels.Dictionary
import QuantumKernels.Json.Reading
import QuantumKernels.Formula.Basic
import QuantumKernels.Formula.Token
import QuantumKernels.Formula.Parser
import QuantumKernels.Kernel.Edit
import QuantumKernels.Kernel.Binding
import QuantumKernels.Kernel.Traversal
import QuantumKernels.Program
import QuantumKernels.Graph.Basic
import QuantumKernels.Graph.Embedding
import QuantumKernels.Gate
import QuantumKernels.Fourier
import QuantumKernels.Optimizer
import QuantumKernels.Wire.Compiler
import QuantumKernels.Wire.Outcome
import QuantumKernels.Wire.Report
import QuantumKernels.Buffer.Stored
import QuantumKernels.Stage.Settings
import QuantumKernels.Simulator.Device
import QuantumKernels.Remote.JobService
import QuantumKernels.Registry.Context
import QuantumKernels.Configuration.Reading
import QuantumKernels.Workbench.Basic
import QuantumKernels.Proofs.Tree
import QuantumKernels.Proofs.Cancellation
import QuantumKernels.Proofs.Relabel
import QuantumKernels.Proofs.Scope
import QuantumKernels.Proofs.Binding
import QuantumKernels.Proofs.Formula.Grammar
import QuantumKernels.Proofs.Json.Numeral
import QuantumKernels.Proofs.Json.Token
import QuantumKernels.Proofs.Json.Document
import QuantumKernels.Proofs.Wire.Literal
import QuantumKernels.Proofs.Json.Reading
import QuantumKernels.Proofs.Wire.Job
import QuantumKernels.Proofs.Wire.Naming
import QuantumKernels.Proofs.Wire.RoundTrip
import QuantumKernels.Proofs.Wire.Request
import QuantumKernels.Proofs.Simulator.Unit
import QuantumKernels.Proofs.Simulator.Register
import QuantumKernels.Proofs.Simulator.BasisState
import QuantumKernels.Proofs.Simulator.Branches
import QuantumKernels.Proofs.Remote.Dispatch
import QuantumKernels.Proofs.Graph.CriticalPath
import QuantumKernels.Proofs.NormalForm
import QuantumKernels.Proofs.Json.Spelling
import QuantumKernels.Proofs.Json.Lines
import QuantumKernels.Proofs.Json.Nesting
import QuantumKernels.Proofs.Stored
import QuantumKernels.Proofs.Accelerator.Nesting
import QuantumKernels.Proofs.Accelerator.Run
import QuantumKernels.Proofs.Buffer
import QuantumKernels.Proofs.Accelerator.Growth
import QuantumKernels.Proofs.Accelerator.Failure
import QuantumKernels.Proofs.Accelerator.Batch
import QuantumKernels.Proofs.Wire.Recompilation
import QuantumKernels.Proofs.Wire.Outcome
import QuantumKernels.Proofs.Wire.Report
import QuantumKernels.Proofs.Remote.Configuration
import QuantumKernels.Proofs.Remote.Decoding
import QuantumKernels.Proofs.Remote.Answers
import QuantumKernels.Proofs.Remote.Credit
import QuantumKernels.Proofs.Histogram
import QuantumKernels.Proofs.StoredBuffer
import QuantumKernels.Proofs.WireStacks
import QuantumKernels.Proofs.Commutation
import QuantumKernels.Proofs.FoldInPlace
import QuantumKernels.Proofs.Folding
import QuantumKernels.Proofs.Wire.Walk
import QuantumKernels.Proofs.Wire.Rendering
import QuantumKernels.Proofs.Registry.Listing
import QuantumKernels.Proofs.Registry.Session
import QuantumKernels.Proofs.Registry.Initialization
import QuantumKernels.Proofs.Accelerator.Repetition
import QuantumKernels.Proofs.LoadedBuffer
import QuantumKernels.Proofs.Simulator.Needs
import QuantumKernels.Proofs.Simulator.Acceptance
import QuantumKernels.Proofs.Remote.Secrecy
import QuantumKernels.Proofs.Registry.Failure
import QuantumKernels.Proofs.Graph.Weights
import QuantumKernels.Proofs.Registry.Handover
import QuantumKernels.Proofs.Binary64
import QuantumKernels.Proofs.Decimal.Rounding
import QuantumKernels.Proofs.Decimal.Reading
import QuantumKernels.Proofs.Decimal.Shortest
import QuantumKernels.Proofs.Decimal.Layout
import QuantumKernels.Proofs.Formula.Printing
import QuantumKernels.Proofs.Graph.Annealing
import QuantumKernels.Proofs.Wire.OutcomeKey
import QuantumKernels.Proofs.Remote.Conservation
import QuantumKernels.Proofs.Accelerator.Extrapolation
import QuantumKernels.Proofs.Declaration
import QuantumKernels.Proofs.Simulator.SeededBatch
import QuantumKernels.Proofs.Simulator.Checked
import QuantumKernels.Proofs.Simulator.Account
import QuantumKernels.Proofs.Options
import QuantumKernels.Proofs.Settings
import QuantumKernels.Proofs.Simulator.InPlace
import QuantumKernels.Proofs.Simulator.Configured
import QuantumKernels.Proofs.Editing
import QuantumKernels.Proofs.Mapping
import QuantumKernels.Proofs.Decimal.Nearest
import QuantumKernels.Proofs.Json.Kept
import QuantumKernels.Proofs.Json.FiniteReal
import QuantumKernels.Proofs.Json.Reread
import QuantumKernels.Proofs.StoredReals
import QuantumKernels.Proofs.BoundStored
import QuantumKernels.Proofs.Dictionary
import QuantumKernels.Proofs.Numeric.Exact
import QuantumKernels.Proofs.Numeric.LinearFit
import QuantumKernels.Proofs.Numeric.Readout
import QuantumKernels.Proofs.Accelerator.Correction
import QuantumKernels.Proofs.RemoteDefaults
import QuantumKernels.Proofs.Environment
import QuantumKernels.Proofs.Repetition
import QuantumKernels.Proofs.Traversal
import QuantumKernels.Proofs.View
import QuantumKernels.Proofs.Decimal.Natural
import QuantumKernels.Proofs.Graph.Embedding
import QuantumKernels.Proofs.Wire.Idempotence
import QuantumKernels.Proofs.Fourier.Transform
import QuantumKernels.Proofs.Fourier.Generation
import QuantumKernels.Proofs.Workbench.Tasks
import QuantumKernels.Proofs.Workbench.Services
import QuantumKernels.Proofs.Yaml.Grammar
import QuantumKernels.Proofs.Yaml.Parsing
import QuantumKernels.Proofs.Yaml.Scanning
import QuantumKernels.Proofs.Yaml.Flow
import QuantumKernels.Proofs.ConfigurationReading
import QuantumKernels.Proofs.Yaml.Values
import QuantumKernels.Proofs.ConfigurationWriting
