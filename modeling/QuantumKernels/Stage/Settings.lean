import QuantumKernels.Stage.Sampling
import QuantumKernels.Stage.Correction
import QuantumKernels.Stage.Extrapolation
import QuantumKernels.Accelerator.Config
/-!
The settings of the built-in stages and how options change them. Options that cannot be read, or
are out of range, change nothing.
-/

namespace QuantumKernels

inductive StageSettings where
  | sampling (times : Nat)
  | correction (rates : Correction.Rates)
  | extrapolation (scales : List Nat)
deriving DecidableEq, Repr

namespace StageSettings

/-- The built-in stages, as they are before any option is set. -/
def builtIn : List StageSettings :=
  [sampling 5, correction {}, extrapolation Extrapolation.defaultScales]

def name : StageSettings → String
  | sampling _ => Sampling.name
  | correction _ => Correction.name
  | extrapolation _ => Extrapolation.name

def specs : StageSettings → List OptionSpec
  | sampling _ => Sampling.specs
  | correction _ => Correction.specs
  | extrapolation _ => Extrapolation.specs

def stage (σ : Type) : StageSettings → Stage σ
  | sampling times => Sampling.stage σ times
  | correction rates => Correction.stage σ rates
  | extrapolation scales => Extrapolation.stage σ scales

/-- The settings with what the options set, and whether they set anything. -/
def apply (s : StageSettings) (options : Options) : Except DeviceError (StageSettings × Bool) :=
  match s with
  | sampling _ => do
    match ← Sampling.read options with
    | some times => return (sampling times, true)
    | none => return (s, false)
  | correction rates => do
    let (rates, handled) ← rates.handle options
    return (correction rates, handled)
  | extrapolation _ => do
    match ← Extrapolation.read options with
    | some scales => return (extrapolation scales, true)
    | none => return (s, false)

/-- The same for options that are offered to everyone: bad ones are ignored. -/
def handle (s : StageSettings) (options : Options) : StageSettings × Bool :=
  match s.apply options with
  | .ok result => result
  | .error _ => (s, false)

def configure (s : StageSettings) (config : DeviceConfig) : Except DeviceError StageSettings :=
  (s.apply config.options).map (·.1)

end StageSettings

/-- The device with these built-in stages around it. -/
def Accelerator.withStages {σ : Type} (base : Accelerator σ) (settings : List StageSettings) : Accelerator σ :=
  base.decorate (settings.map (StageSettings.stage σ))

end QuantumKernels
