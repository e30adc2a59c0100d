import QuantumKernels.Accelerator.Decorated
import QuantumKernels.Numeric.Readout
/-!
Readout correction as a stage: after the rest of the chain has run, the counts of the buffer are
replaced by those of the corrected distribution.
-/

namespace QuantumKernels.Correction

open Readout

def name : String := "ro-error"

def rawKey : String := "ro-raw-exp-val-z"

def fixedKey : String := "ro-fixed-exp-val-z"

def specs : List OptionSpec := [
  ⟨Flip.up.key, "Per-bit probability of reading 1 from a prepared 0"⟩,
  ⟨Flip.down.key, "Per-bit probability of reading 0 from a prepared 1"⟩]

/-- The rates that are set; those of the device stand in for the others. -/
structure Rates where
  up : Option (List Float) := none
  down : Option (List Float) := none
deriving DecidableEq, Repr

def message : Readout.Fault Float → String
  | .noRate flip rates bit => s!"{flip.key} has {rates} entries, bit {bit} has no rate"
  | .notProbability flip rate =>
    flip.key ++ " rate " ++ Decimal.Layout.plain.render rate ++ " is not a probability"
  | .singular bit => s!"readout confusion matrix for bit {bit} is singular"
  | .emptyDistribution => "readout correction produced an empty distribution"

def deviceError : Readout.Fault Float → DeviceError
  | .emptyDistribution => .execution (message .emptyDistribution)
  | fault => .configuration (message fault)

def Rates.resolve (r : Rates) (device : List Float) : Except DeviceError (List Float × List Float) :=
  let device? := if device.isEmpty then none else some device
  match r.up.or device?, r.down.or device? with
  | some up, some down => .ok (up, down)
  | _, _ => .error (.configuration
      s!"ro-error needs {Flip.up.key} and {Flip.down.key} or a calibrated accelerator")

/-- The number of shots in proportion to a share, rounded by itself. -/
def portion {α : Type} [Scalar α] (shots : Nat) (share : α) : Nat :=
  Scalar.nearest (share * Scalar.ofNat shots)

/-- So many shots in proportion to a distribution. -/
def shares {α : Type} [Scalar α] (distribution : Dictionary α) (shots : Nat) : Dictionary Nat :=
  distribution.filterMap fun share =>
    let n := portion shots share
    if n = 0 then none else some n

/-- The buffer with its counts corrected; one without shots stays as it is. -/
def corrected (r : Rates) (device : List Float) (b : Buffer) : Except DeviceError Buffer :=
  if b.shots = 0 then .ok b
  else do
    let (up, down) ← r.resolve device
    let distribution ← (correct (Buffer.words b.counts) up down).mapError deviceError
    let b := b.setInfo rawKey (.real (Buffer.expectation b.counts))
    let b := b.setInfo fixedKey (.real (parity distribution))
    return b.replaceCounts (shares distribution b.shots)

def stage (σ : Type) (r : Rates) : Stage σ where
  name := name
  around rates rest kernel := do
    rest kernel
    match corrected r rates.oneBit (← Run.buffer) with
    | .ok b => Run.modifyBuffer fun _ => b
    | .error e => throw e

/-- The rates with those that the options set, and whether they set any. -/
def Rates.handle (r : Rates) (options : Options) : Except DeviceError (Rates × Bool) := do
  let up ← (options.readList Flip.up.key Options.real).mapError .registry
  let down ← (options.readList Flip.down.key Options.real).mapError .registry
  return (⟨up.or r.up, down.or r.down⟩, up.isSome || down.isSome)

end QuantumKernels.Correction
