import QuantumKernels.Simulator.Register
import QuantumKernels.Buffer.Basic
import QuantumKernels.Kernel.Basic
/-!
Plans: a kernel laid out for simulation. When no gate follows a measurement, one evolution serves
all shots and outcomes are drawn from its end; otherwise every shot is run by itself, its
measurements in program order.

The number of qubits is a machine word, one more than the last qubit in use. So it is zero for a
kernel that uses the greatest word as a qubit.
-/

namespace QuantumKernels

structure Plan where
  operations : List Operation
  qubits : Nat
  /-- qubits and the slots they are read into at the end -/
  readout : List (Nat × Nat)
  /-- the length of an outcome -/
  width : Nat
  /-- whether measurements stand only at the end -/
  terminal : Bool
deriving DecidableEq, Repr

namespace Plan

/-- Where a measurement reads from and to. -/
def readoutOf (kernel : String) (op : Operation) : Except DeviceError (Nat × Nat) :=
  match op.slot?, op.bits with
  | none, _ => .error (.execution s!"measurement without an integer classical slot in '{kernel}'")
  | some _, [] => .error (.execution s!"measurement without a qubit in '{kernel}'")
  | some slot, q :: _ => .ok (q, slot)

/-- A kernel without measurements reads out all its qubits, each into its own slot. -/
def ofKernel (k : Kernel) (bufferSize maxQubits : Nat) : Except DeviceError Plan := do
  let operations := k.operations
  let qubits := Word.wrap (widthOf (operations.flatMap Operation.bits))
  if maxQubits < qubits then
    .error (.execution
      s!"kernel '{k.name}' needs {qubits} qubits; the local simulator is limited to {maxQubits}")
  else if bufferSize < qubits then
    .error (.execution s!"kernel '{k.name}' needs {qubits} qubits but the buffer holds {bufferSize}")
  else
    let measured ← (operations.filter Operation.isMeasure).mapM (readoutOf k.name)
    let readout := if measured.isEmpty then (List.range qubits).map fun q => (q, q) else measured
    return {
      operations
      qubits
      readout
      width := widthOf (readout.map (·.2))
      terminal := (operations.dropWhile fun op => !op.isMeasure).all Operation.isMeasure }

/-- Flips a bit with a probability, which a positive error has to be. -/
def flip (error : Float) (bit : Bool) (r : RandomStream) : Except DeviceError (Bool × RandomStream) :=
  if 0 < error then
    match r.chance? error with
    | some (flipped, r) => .ok (bit ^^ flipped, r)
    | none => .error (.crash "a readout error is no probability")
  else .ok (bit, r)

/-- An outcome of zeros. -/
def blank (p : Plan) : List Char := List.replicate p.width '0'

/-- The outcome of an index: slots that read one are set. -/
def readIndex (p : Plan) (error : Float) (index : Nat) (r : RandomStream) :
    Except DeviceError (List Char × RandomStream) :=
  p.readout.foldlM (fun (bits, r) (qubit, slot) => do
    let (bit, r) ← flip error (index.testBit (Register.place qubit)) r
    return (if bit then bits.set slot '1' else bits, r)) (p.blank, r)

/-- The state after all gates. -/
def evolve (p : Plan) : Except DeviceError Register := do
  (p.operations.filter fun op => !op.isMeasure).foldlM Register.applyOperation (← Register.zero p.qubits)

/-- A shot in progress. -/
structure Shot where
  register : Register
  bits : List Char
  random : RandomStream

/-- One operation of a shot; a measurement writes its slot. -/
def Shot.step (error : Float) (s : Shot) (op : Operation) : Except DeviceError Shot := do
  if op.isMeasure then
    let (bit, register, random) ← s.register.measure (op.bits.headD 0) s.random
    let (bit, random) ← flip error bit random
    return ⟨register, s.bits.set (op.slot?.getD 0) (if bit then '1' else '0'), random⟩
  else return { s with register := ← s.register.applyOperation op }

/-- A shot from its start. -/
def shot (p : Plan) (error : Float) (r : RandomStream) : Except DeviceError (List Char × RandomStream) := do
  let s ← p.operations.foldlM (Shot.step error) ⟨← Register.zero p.qubits, p.blank, r⟩
  return (s.bits, s.random)

/-- The histogram of so many shots more. -/
def repeatShots (one : RandomStream → Except DeviceError (List Char × RandomStream)) :
    (shots : Nat) → Dictionary Nat → RandomStream → Except DeviceError (Dictionary Nat)
  | 0, counts, _ => .ok counts
  | shots + 1, counts, r => do
    let (bits, r) ← one r
    repeatShots one shots (Buffer.addCount counts (String.ofList bits) 1) r

/-- The histogram from one evolution. -/
def runTerminal (p : Plan) (shots : Nat) (error : Float) (r : RandomStream) :
    Except DeviceError (Dictionary Nat) := do
  let register ← p.evolve
  repeatShots (fun r =>
    let (index, r) := register.state.sample r
    p.readIndex error index r) shots ∅ r

/-- The histogram from an evolution for each shot. -/
def runShots (p : Plan) (shots : Nat) (error : Float) (r : RandomStream) :
    Except DeviceError (Dictionary Nat) :=
  repeatShots (p.shot error) shots ∅ r

def run (p : Plan) (shots : Nat) (error : Float) (r : RandomStream) : Except DeviceError (Dictionary Nat) :=
  if p.terminal then p.runTerminal shots error r else p.runShots shots error r

end Plan

end QuantumKernels
