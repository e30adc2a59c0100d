import QuantumKernels.Configuration.Basic
import QuantumKernels.Workbench.Component
/-!
Workbenches: a context with the built-in plugins and others after them, and the configuration it
was started with. Work on a bench finds components by name; what it has changed stays if it fails.
-/

namespace QuantumKernels

inductive WorkbenchError where
  | configuration (fault : ConfigurationFault)
  | registry (error : RegistryError)
  | kernel (error : KernelError)
  | wire (error : WireError)
  | device (error : DeviceError)
deriving DecidableEq, Repr

def WorkbenchError.message : WorkbenchError → String
  | configuration fault => fault.message
  | registry e => e.message
  | kernel e => e.message
  | wire e => e.message
  | device e => e.message

structure Workbench (ω : Type) where
  context : Context Facility (Component ω)
  configuration : Configuration

/-- Work on a bench. -/
abbrev Work (ω : Type) (α : Type) := ExceptT WorkbenchError (StateM (Workbench ω)) α

namespace Workbench

variable {ω : Type}

/-- The context in which the plugins are active. -/
def activated (root : String) (plugins : List (Plugin Facility (Component ω))) :
    Except WorkbenchError (Context Facility (Component ω)) :=
  match (plugins.foldl Context.withPlugin {}).activate root with
  | (.ok (), context) => .ok context
  | (.error e, _) => .error (.registry e)

/-- A workbench with the built-in plugins and more after them, so that these take precedence where
names are the same. The options of the configuration are offered, if there are any. -/
def start (c : Configuration) (defaultRoot : String) (more : List (Plugin Facility (Component ω)) := []) :
    Except WorkbenchError (Workbench ω) := do
  c.validate.mapError .configuration
  let context ← activated (c.root.getD defaultRoot) (Plugin.builtIn ++ more)
  let context := c.options.entries.foldl (fun context (k, v) => context.setOption k v) context
  if c.options.isEmpty then return ⟨context, c⟩
  else
    let (_, context) ← context.handleOptions.mapError .registry
    return ⟨context, c⟩

/-- Sets an option and offers all of them; says whether any was taken. -/
def setOption (key value : String) : Work ω Bool := do
  modify fun w => { w with context := w.context.setOption key value }
  match (← get).context.handleOptions with
  | .ok (handled, context) =>
    modify fun w => { w with context }
    return handled
  | .error e => throw (.registry e)

/-- The names of the components of each facility. -/
def inventory (w : Workbench ω) : Dictionary (List String) :=
  .ofList (Facility.all.map fun f => (f.keyword, w.context.registry.ids f))

def missing (facility : Facility) (name : String) : WorkbenchError :=
  .registry (.notFound name (Capability.label facility))

/-- The component that a name stands for. -/
def component (facility : Facility) (name : String) : Work ω (Handle × Component ω) := do
  match (← get).context.service facility name with
  | .error e => throw (.registry e)
  | .ok (h, context) =>
    modify fun w => { w with context }
    match context.registry.object? h with
    | some c => return (h, c)
    | none => throw (missing facility name)

/-- The accelerator of that name, configured anew. -/
def accelerator (random : RandomSource) (name : String) : Work ω (Accelerator (Remote.Network ω)) := do
  let (h, c) ← component .accelerator name
  let (outcome, c) := c.configure ((← get).configuration.deviceConfig name c.isRemote)
  modify fun w => { w with context := { w.context with registry := w.context.registry.update h c } }
  match outcome, c.accelerator? random with
  | .error e, _ => throw (.device e)
  | .ok (), some a => return a
  | .ok (), none => throw (missing .accelerator name)

/-- A fresh stage, set up by the options. -/
def stage (name : String) : Work ω StageSettings := do
  match ← component .stage name with
  | (_, .stage s) =>
    match s.apply (← get).context.options with
    | .ok (s, _) => return s
    | .error e => throw (.device e)
  | _ => throw (missing .stage name)

/-- An accelerator with fresh stages around it, the first outermost. -/
def decorated (base : Accelerator (Remote.Network ω)) (names : List String) :
    Work ω (Accelerator (Remote.Network ω)) := do
  let stages ← names.mapM stage
  return base.withStages stages

def compiler (name : String) : Work ω Wire.Compiler := do
  match ← component .compiler name with
  | (_, .compiler c) => return c
  | _ => throw (missing .compiler name)

def compile (name source : String) : Work ω Program := do
  let _ ← compiler name
  match Wire.compile source with
  | .ok p => return p
  | .error e => throw (.wire e)

/-- The wire form of a kernel, under the kernel's name. -/
def translate (name : String) (k : Kernel) : Work ω String := do
  match (← compiler name).translate k.name k with
  | .ok text => return text
  | .error e => throw (.wire e)

def transform (name : String) (p : Program) : Work ω Program := do
  match ← component .transformation name with
  | (_, .optimizer o) => return o.transform p
  | _ => throw (missing .transformation name)

def generate (name : String) (parameters : List Parameter) : Work ω Kernel := do
  match ← component .generator name with
  | (_, .generator g) =>
    match g.generateFrom parameters with
    | .ok k => return k
    | .error e => throw (.kernel e)
  | _ => throw (missing .generator name)

end Workbench

end QuantumKernels
