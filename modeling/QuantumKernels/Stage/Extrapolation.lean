import QuantumKernels.Accelerator.Decorated
import QuantumKernels.Numeric.LinearFit
import QuantumKernels.Kernel.Folding
/-!
Extrapolation to zero noise: the kernel runs at several noise scales, and the expectation values
are fitted with a line. Scales whose run fails are passed over as long as two are left.
-/

namespace QuantumKernels.Extrapolation

def name : String := "rich-extrapolation"

def key : String := "rich-extrap-r"

def scalesKey : String := "rich-extrap-scales"

def valuesKey : String := "rich-extrap-values"

def specs : List OptionSpec := [⟨key, "Comma-separated odd noise scales (default 1,3,5)"⟩]

def defaultScales : List Nat := [1, 3, 5]

/-- One noise scale that was tried. -/
structure Trial where
  scale : Nat
  outcome : Except DeviceError Buffer

/-- Folds the kernel at a scale and runs it, into a buffer of its own. -/
def trial {σ : Type} (rest : Kernel → Run σ Unit) (kernel : Kernel) (name : String) (size scale : Nat) :
    Run σ Trial := do
  match kernel.foldInPlace scale with
  | .error e => throw (.kernel e)
  | .ok folded => return ⟨scale, ← (Run.onOwn (.new name size) (rest folded)).attempt⟩

/-- Runs the kernel at each scale. -/
def trials {σ : Type} (rest : Kernel → Run σ Unit) (kernel : Kernel) (scales : List Nat) :
    Run σ (List Trial) := do
  let current ← Run.buffer
  scales.mapM (trial rest kernel current.name current.size)

/-- The scale and the buffer of a trial that has succeeded. -/
def Trial.success? (t : Trial) : Option (Nat × Buffer) :=
  match t.outcome with
  | .ok b => some (t.scale, b)
  | .error _ => none

def Trial.failure? (t : Trial) : Option DeviceError :=
  match t.outcome with
  | .ok _ => none
  | .error e => some e

/-- What the trials add to a buffer. -/
def conclude (ts : List Trial) (b : Buffer) : Except DeviceError Buffer :=
  let runs := ts.filterMap Trial.success?
  let scales := runs.map fun (scale, _) => Float.ofNat scale
  let values := runs.map fun (_, own) => own.expectationZ
  match runs with
  | (_, first) :: _ :: _ =>
    match LinearFit.intercept (scales.zip values) with
    | .error fault => .error (.insufficient fault.message)
    | .ok estimate =>
      let b := b.absorb first
      let b := b.setInfo scalesKey (.reals scales)
      let b := b.setInfo valuesKey (.reals values)
      .ok (b.setInfo Buffer.expectationKey (.real estimate))
  | runs =>
    match (ts.filterMap Trial.failure?).getLast? with
    | some e => .error e
    | none => .error (.insufficient s!"rich-extrapolation needs two noise scales, got {runs.length}")

def stage (σ : Type) (scales : List Nat) : Stage σ where
  name := name
  around _ rest kernel := do
    let ts ← trials rest kernel scales
    match conclude ts (← Run.buffer) with
    | .ok b => Run.modifyBuffer fun _ => b
    | .error e => throw e

/-- Scales are odd and differ from each other, and there is one at least. -/
def check (scales : List Nat) : Except RegistryError Unit :=
  if scales.isEmpty then .error (.invalidOption key "no scales given")
  else match scales.find? fun r => r % 2 == 0 with
    | some r => .error (.invalidOption key s!"scale {r} is not odd")
    | none =>
      if scales.Nodup then .ok () else .error (.invalidOption key "scales must be distinct")

/-- The scales that the options set. -/
def read (options : Options) : Except DeviceError (Option (List Nat)) := do
  match ← (options.readList key (Options.natural 64)).mapError .registry with
  | none => .ok none
  | some scales => (check scales).mapError .registry; .ok (some scales)

end QuantumKernels.Extrapolation
