import QuantumKernels.Gate
import QuantumKernels.Graph.Embedding
import QuantumKernels.Fourier
import QuantumKernels.Optimizer
import QuantumKernels.Registry.Context
import QuantumKernels.Remote.JobService
import QuantumKernels.Simulator.Device
import QuantumKernels.Stage.Settings
import QuantumKernels.Wire.Compiler
/-!
What a workbench is made of, and the plugins that bring it. `ω` is the state of whatever answers
remote requests.
-/

namespace QuantumKernels

/-- The capabilities of a workbench. -/
inductive Facility where
  | compiler
  | family
  | transformation
  | generator
  | embedding
  | accelerator
  | stage
  | options
deriving DecidableEq, Repr

namespace Facility

def all : List Facility :=
  [compiler, family, transformation, generator, embedding, accelerator, stage, options]

/-- The word a facility is asked for by. -/
def keyword : Facility → String
  | compiler => "compiler"
  | family => "provider"
  | transformation => "transformation"
  | generator => "generator"
  | embedding => "embedding"
  | accelerator => "accelerator"
  | stage => "stage"
  | options => "options"

def ofKeyword? (s : String) : Option Facility := all.find? fun f => f.keyword == s

end Facility

instance : Capability Facility where
  label
    | .compiler => "dyn qpipe_compile::compiler::Compiler"
    | .family => "dyn qpipe_ir::provider::IrProvider"
    | .transformation => "dyn qpipe_ir::provider::IrTransformation"
    | .generator => "dyn qpipe_ir::provider::IrGenerator"
    | .embedding => "dyn qpipe_ir::embedding::EmbeddingAlgorithm"
    | .accelerator => "dyn qpipe_hal::accelerator::Accelerator"
    | .stage => "dyn qpipe_hal::decorator::ExecutionStage"
    | .options => "dyn qpipe_registry::options::OptionsProvider"
  options := .options

inductive Component (ω : Type) where
  | compiler (settings : Wire.Compiler)
  | family (kind : Kind)
  | optimizer (optimizer : Optimizer)
  | generator (generator : Fourier)
  | embedding
  | stage (settings : StageSettings)
  | simulator (settings : LocalSettings)
  | service (link : Remote.Link ω) (device : Remote.Device Remote.JobService)

namespace Component

variable {ω : Type}

def name : Component ω → String
  | compiler _ => Wire.Compiler.name
  | family kind => kind.familyName
  | optimizer _ => Optimizer.name
  | generator g => g.name
  | embedding => Embedding.shiftName
  | stage s => s.name
  | simulator _ => LocalSettings.name
  | service .. => Remote.JobService.name

instance : Configurable (Component ω) where
  specs
    | optimizer _ => Optimizer.specs
    | stage s => s.specs
    | simulator _ => LocalSettings.specs
    | _ => []
  handle c options :=
    match c with
    | optimizer o => let (o, handled) := o.handleOptions options; (optimizer o, handled)
    | stage s => let (s, handled) := s.handle options; (stage s, handled)
    | simulator s => let (s, handled) := s.handle options; (simulator s, handled)
    | c => (c, false)

def isRemote : Component ω → Bool
  | service .. => true
  | _ => false

/-- The component as its own settings make it, if it runs kernels. -/
def accelerator? (random : RandomSource) : Component ω → Option (Accelerator (Remote.Network ω))
  | simulator s => some (s.accelerator _ random)
  | service link d => some (Remote.accelerator link d.settings d.own.service)
  | _ => none

/-- Configures what runs kernels. -/
def configure (c : Component ω) (config : DeviceConfig) : Except DeviceError Unit × Component ω :=
  match c with
  | simulator s =>
    match s.configure config with
    | .ok s => (.ok (), simulator s)
    | .error e => (.error e, simulator s)
  | service link d =>
    let (outcome, d) := d.configure Remote.JobService.configure config
    (outcome, service link d)
  | c => (.ok (), c)

end Component

namespace Plugin

variable {ω : Type}

/-- The optimizer that is looked up is also the one that takes options. -/
def compile : Plugin Facility (Component ω) :=
  .always "compile" "QObject compiler and IR collaborators" fun r =>
    let r := r.addShared .compiler Wire.Compiler.name (.compiler {})
    let r := [Kind.gate, Kind.anneal].foldl
      (fun r kind => r.addShared .family kind.familyName (.family kind)) r
    let (canonical, r) := r.allocate (.optimizer .default)
    let r := r.register { capability := .transformation, name := some Optimizer.name, canonical }
    let r := r.register { capability := .options, name := none, canonical }
    let r := [Fourier.mk false, Fourier.mk true].foldl
      (fun r g => r.addShared .generator g.name (.generator g)) r
    r.addShared .embedding Embedding.shiftName .embedding

/-- Every lookup makes a stage of its own; what takes the options is looked up by nobody. -/
def decorators : Plugin Facility (Component ω) :=
  .always "decorators" "Built-in accelerator decorators" fun r =>
    let r := StageSettings.builtIn.foldl (fun r s => r.addCloneable .stage s.name (.stage s)) r
    StageSettings.builtIn.foldl (fun r s => r.addAnonymous .options (.stage s)) r

def simulator : Plugin Facility (Component ω) :=
  .always LocalSettings.name "Local statevector accelerator" fun r =>
    let (canonical, r) := r.allocate (.simulator {})
    let r := r.register { capability := .accelerator, name := some LocalSettings.name, canonical }
    r.register { capability := .options, name := none, canonical }

/-- The job service behind a link. -/
def jobService (link : Remote.Link ω) : Plugin Facility (Component ω) :=
  .always Remote.JobService.name "Remote accelerator over the QObject job protocol" fun r =>
    r.addShared .accelerator Remote.JobService.name (.service link { own := {} })

/-- How the job service's plugin is shown; a link of its own may have been given to it. -/
def describeJobService (custom : Bool) : String :=
  Text.describeRecord "IbmPlugin" [("custom_client", if custom then "true" else "false")]

/-- The plugins of every workbench. -/
def builtIn : List (Plugin Facility (Component ω)) := [compile, decorators, simulator, jobService .offline]

end Plugin

end QuantumKernels
