import QuantumKernels.Simulator.Plan
import QuantumKernels.Accelerator.Basic
import QuantumKernels.Accelerator.Config
/-!
The local simulator as an accelerator, with the options that set it up.
-/

namespace QuantumKernels

structure LocalSettings where
  shots : Nat := 1024
  seed : Option Nat := none
  /-- the largest register -/
  maxQubits : Nat := 20
  /-- the probability that a measured bit is flipped -/
  readoutError : Float := 0
deriving DecidableEq, Repr

namespace LocalSettings

def name : String := "local"

def description : String := "Local statevector simulator"

def shotsKey : String := "shots"
def seedKey : String := "seed"
def maxQubitsKey : String := "max-qubits"
def readoutErrorKey : String := "readout-error"

def specs : List OptionSpec := [
  ⟨shotsKey, "Shots per kernel on the local simulator"⟩,
  ⟨seedKey, "RNG seed for the local simulator"⟩,
  ⟨maxQubitsKey, "Largest register the local simulator accepts"⟩,
  ⟨readoutErrorKey, "Symmetric readout flip probability"⟩]

/-- The largest register that can be set. -/
def qubitCeiling : Nat := 28

/-- Takes over an option that is set and passes a check. -/
def take {α : Type} (options : Options) (key : String) (reader : Options.Reader α)
    (complaint? : α → Option String) (s : LocalSettings) (put : α → LocalSettings) :
    Except DeviceError LocalSettings := do
  match ← (options.read key reader).mapError .registry with
  | none => .ok s
  | some v => match complaint? v with
    | some text => .error (.configuration text)
    | none => .ok (put v)

/-- The settings with what the options set; the first bad option decides. -/
def apply (s : LocalSettings) (options : Options) : Except DeviceError LocalSettings := do
  let s ← take options shotsKey (Options.natural 64)
    (fun n => if n = 0 then some "shots must be positive" else none) s fun n => { s with shots := n }
  let s ← take options seedKey (Options.natural 64) (fun _ => none) s fun n => { s with seed := some n }
  let s ← take options maxQubitsKey (Options.natural 64)
    (fun n => if n = 0 ∨ qubitCeiling < n then
        some s!"max-qubits must be in 1..={qubitCeiling}, got {n}"
      else none) s fun n => { s with maxQubits := n }
  take options readoutErrorKey Options.real
    (fun p => if 0 ≤ p ∧ p ≤ 0.5 then none
      else some ("readout-error must be in [0, 0.5], got " ++ Decimal.Layout.plain.render p))
    s fun p => { s with readoutError := p }

/-- Whether options set anything here. -/
def concerns (options : Options) : Bool := specs.any fun spec => options.contains spec.key

/-- The same for options that are offered to everyone: bad ones are ignored. -/
def handle (s : LocalSettings) (options : Options) : LocalSettings × Bool :=
  match s.apply options with
  | .ok s => (s, concerns options)
  | .error _ => (s, false)

def configure (s : LocalSettings) (config : DeviceConfig) : Except DeviceError LocalSettings :=
  s.apply config.options

/-- Kernel `i` of a batch has seed `seed + i`, around the end of the machine word. -/
def batchSeed (s : LocalSettings) (i : Nat) : Option Nat := s.seed.map fun seed => (seed + i) % 2 ^ 64

/-- The histogram of a plan. -/
def simulate (s : LocalSettings) (random : RandomSource) (seed : Option Nat) (p : Plan) :
    Except DeviceError (Dictionary Nat) :=
  p.run s.shots s.readoutError (random.stream seed)

/-- What a kernel adds to a buffer. -/
def execute (s : LocalSettings) (random : RandomSource) (k : Kernel) (b : Buffer) :
    Except DeviceError Buffer := do
  let p ← Plan.ofKernel k b.size s.maxQubits
  return b.appendCounts (← s.simulate random s.seed p).entries

/-- The buffers of a batch; no kernel runs unless all can be planned. -/
def batch (s : LocalSettings) (random : RandomSource) (kernels : List Kernel) (size : Nat) :
    Except DeviceError (List Buffer) := do
  let plans ← kernels.mapM fun k => Plan.ofKernel k size s.maxQubits
  let counts ← plans.zipIdx.mapM fun (p, i) => s.simulate random (s.batchSeed i) p
  return kernels.zipWith (fun k c => (Buffer.new k.name size).appendCounts c.entries) counts

def accelerator (σ : Type) (s : LocalSettings) (random : RandomSource) : Accelerator σ where
  name := name
  description := description
  defaultSize := s.maxQubits
  accepts size := 1 ≤ size && size ≤ s.maxQubits
  oneBitRates := if 0 < s.readoutError then List.replicate s.maxQubits s.readoutError else []
  execute k := do
    match s.execute random k (← Run.buffer) with
    | .ok b => Run.modifyBuffer fun _ => b
    | .error e => throw e
  executeBatch ks := do
    match s.batch random ks (← Run.buffer).size with
    | .ok results =>
      Run.modifyBuffer (·.attach results)
      return results
    | .error e => throw e

end LocalSettings

end QuantumKernels
