import QuantumKernels.Simulator.Amplitude
import QuantumKernels.Simulator.Random
import QuantumKernels.Accelerator.Error
import QuantumKernels.Kernel.Operation
import QuantumKernels.Numeric.Scalar
import QuantumKernels.Text.Described
/-!
State vectors: one amplitude for each assignment of the qubits, qubit `q` being bit `q` of its
index. A gate gives every new amplitude from old ones only: a one-qubit gate works on the pair of
indices that differ in its qubit, a controlled gate on those pairs whose control bit is set, and an
exchange of qubits moves amplitudes from one index to another.
-/

namespace QuantumKernels

structure StateVector where
  qubits : Nat
  amplitudes : Array Amplitude
  size_eq : amplitudes.size = 2 ^ qubits

namespace StateVector

/-- The amplitude at an index, zero outside. -/
def amplitude (s : StateVector) (i : Nat) : Amplitude := s.amplitudes.getD i .zero

/-- The vector with these amplitudes. -/
def tabulate (qubits : Nat) (f : Nat → Amplitude) : StateVector :=
  ⟨qubits, Array.ofFn fun i : Fin (2 ^ qubits) => f i, by simp⟩

theorem amplitude_tabulate {qubits i : Nat} {f : Nat → Amplitude} (h : i < 2 ^ qubits) :
    (tabulate qubits f).amplitude i = f i := by
  simp [amplitude, tabulate, Array.getD, h]

/-- All qubits zero. -/
def zero (qubits : Nat) : StateVector := tabulate qubits fun i => if i = 0 then .one else .zero

/-- What a one-qubit gate makes of the amplitudes with its qubit clear and set. -/
structure Gate where
  clear : Amplitude → Amplitude → Amplitude
  set : Amplitude → Amplitude → Amplitude

/-- The amplitude at an index after a gate on a qubit. -/
def gateAt (s : StateVector) (g : Gate) (q i : Nat) : Amplitude :=
  if i.testBit q then g.set (s.amplitude (i ^^^ 2 ^ q)) (s.amplitude i) else g.clear (s.amplitude i) (s.amplitude (i ^^^ 2 ^ q))

def apply (s : StateVector) (g : Gate) (q : Nat) : StateVector := tabulate s.qubits (s.gateAt g q)

def applyControlled (s : StateVector) (g : Gate) (control target : Nat) : StateVector :=
  tabulate s.qubits fun i => if i.testBit control then s.gateAt g target i else s.amplitude i

/-- The index with two of its bits exchanged. -/
def exchangeBits (a b i : Nat) : Nat :=
  if i.testBit a == i.testBit b then i else i ^^^ 2 ^ a ^^^ 2 ^ b

def exchange (s : StateVector) (a b : Nat) : StateVector :=
  tabulate s.qubits fun i => s.amplitude (exchangeBits a b i)

namespace Gate

def half : Float := Float.ofBits 0x3fe6a09e667f3bcd

def pi : Float := Float.ofBits 0x400921fb54442d18

def x : Gate := ⟨fun _ b => b, fun a _ => a⟩

def y : Gate := ⟨fun _ b => -Amplitude.i * b, fun a _ => .i * a⟩

def hadamard : Gate := ⟨fun a b => .scale half (a + b), fun a b => .scale half (a - b)⟩

def phase (angle : Float) : Gate :=
  let turn := Amplitude.turn angle
  ⟨fun a _ => a, fun _ b => turn * b⟩

def rx (angle : Float) : Gate :=
  let c := (angle / 2).cos
  let s : Amplitude := ⟨0, -(angle / 2).sin⟩
  ⟨fun a b => .scale c a + s * b, fun a b => s * a + .scale c b⟩

def ry (angle : Float) : Gate :=
  let c := (angle / 2).cos
  let s := (angle / 2).sin
  ⟨fun a b => .scale c a - .scale s b, fun a b => .scale s a + .scale c b⟩

def rz (angle : Float) : Gate :=
  let back := Amplitude.turn (-angle / 2)
  let forth := Amplitude.turn (angle / 2)
  ⟨fun a _ => back * a, fun _ b => forth * b⟩

def general (theta phi lambda : Float) : Gate :=
  let c := (theta / 2).cos
  let s := (theta / 2).sin
  let upper := Amplitude.scale s (.turn lambda)
  let lower := Amplitude.scale s (.turn phi)
  let last := Amplitude.scale c (.turn (phi + lambda))
  ⟨fun a b => .scale c a - upper * b, fun a b => lower * a + last * b⟩

end Gate

/-- A gate with the number of qubits it takes and the angles it reads. -/
inductive Action where
  | nothing
  | single (gate : Gate)
  | controlled (gate : Gate)
  | exchange

def takesTwo (name : String) : Bool :=
  ["CNOT", "CY", "CZ", "CH", "CRZ", "CPhase", "Swap"].contains name

/-- The numeric parameter of an operation at a position. -/
def angle (op : Operation) (i : Nat) : Except DeviceError Float :=
  match op.parameters[i]? with
  | none => .error (.execution s!"{op.name} is missing parameter {i}")
  | some p => match p.toReal? with
    | some x => .ok x
    | none => .error (.unsupported
        s!"non-numeric parameter {p.print} on {op.name}; evaluate the kernel first")

/-- What the operation does to a state, if it is a gate. -/
def action (op : Operation) : Except DeviceError Action :=
  match op.name with
  | "I" => .ok .nothing
  | "X" => .ok (.single .x)
  | "Y" => .ok (.single .y)
  | "Z" => .ok (.single (.phase Gate.pi))
  | "H" => .ok (.single .hadamard)
  | "S" => .ok (.single (.phase (Gate.pi / 2)))
  | "Sdg" => .ok (.single (.phase (-Gate.pi / 2)))
  | "T" => .ok (.single (.phase (Gate.pi / 4)))
  | "Tdg" => .ok (.single (.phase (-Gate.pi / 4)))
  | "Rx" => do return .single (.rx (← angle op 0))
  | "Ry" => do return .single (.ry (← angle op 0))
  | "Rz" => do return .single (.rz (← angle op 0))
  | "U" => do return .single (.general (← angle op 0) (← angle op 1) (← angle op 2))
  | "CNOT" => .ok (.controlled .x)
  | "CY" => .ok (.controlled .y)
  | "CZ" => .ok (.controlled (.phase Gate.pi))
  | "CH" => .ok (.controlled .hadamard)
  | "CRZ" => do return .controlled (.rz (← angle op 0))
  | "CPhase" => do return .controlled (.phase (← angle op 0))
  | "Swap" => .ok .exchange
  | other => .error (.unsupported s!"instruction '{other}' on the local simulator")

/-- What an operation does on a register of so many qubits. Those it names have to be in the register,
as many as the gate takes and all different; only then its angles are read. -/
def actionOn (qubits : Nat) (op : Operation) : Except DeviceError Action :=
  match op.bits.find? fun q => qubits ≤ q with
  | some q => .error (.execution s!"{op.name} targets qubit {q} of a {qubits}-qubit register")
  | none =>
    let arity := if takesTwo op.name then 2 else 1
    if op.bits.length = arity ∧ op.bits.Nodup then action op
    else .error (.execution
      (s!"{op.name} expects {arity} distinct qubits, got " ++ Text.describeList toString op.bits))

/-- What an action does to a state, on the qubits of its operation. -/
def act (s : StateVector) : Action → List Nat → StateVector
  | .single g, [q] => s.apply g q
  | .controlled g, [a, b] => s.applyControlled g a b
  | .exchange, [a, b] => s.exchange a b
  | _, _ => s

def applyOperation (s : StateVector) (op : Operation) : Except DeviceError StateVector := do
  return s.act (← actionOn s.qubits op) op.bits

/-- The probability of reading a qubit as one. -/
def probabilityOne (s : StateVector) (q : Nat) : Float :=
  (s.amplitudes.foldl (fun (sum, i) a =>
    (if i.testBit q then sum + a.normSquared else sum, i + 1)) ((Scalar.neutral : Float), 0)).1

/-- The vector after a qubit was read, scaled to length one where it can be. -/
def collapse (s : StateVector) (q : Nat) (outcome : Bool) (norm : Float) : StateVector :=
  tabulate s.qubits fun i =>
    if i.testBit q == outcome then
      if 0 < norm then (s.amplitude i).divide norm else s.amplitude i
    else .zero

/-- The nearest number from zero to one. -/
def clampUnit (x : Float) : Float := if x < 0 then 0 else if 1 < x then 1 else x

/-- Reads a qubit. -/
def measure (s : StateVector) (q : Nat) (r : RandomStream) :
    Except DeviceError (Bool × StateVector × RandomStream) :=
  let p := clampUnit (s.probabilityOne q)
  match r.chance? p with
  | none => .error (.crash "an outcome has no probability")
  | some (outcome, r) => .ok (outcome, s.collapse q outcome (if outcome then p else 1 - p).sqrt, r)

/-- The index where the probabilities, added up from `i` on, first exceed a bound; the last one if
they never do. -/
def indexAbove (s : StateVector) (bound : Float) (i : Nat) (sum : Float) : Nat :=
  if i < s.amplitudes.size then
    let sum := sum + (s.amplitude i).normSquared
    if bound < sum then i else indexAbove s bound (i + 1) sum
  else s.amplitudes.size - 1
termination_by s.amplitudes.size - i

/-- Draws an index without reading any qubit. -/
def sample (s : StateVector) (r : RandomStream) : Nat × RandomStream :=
  let (bound, r) := r.unit
  (s.indexAbove bound 0 0, r)

end StateVector

end QuantumKernels
