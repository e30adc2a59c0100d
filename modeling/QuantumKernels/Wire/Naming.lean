import QuantumKernels.Wire.Job
import QuantumKernels.Wire.Error
import QuantumKernels.Text.Uppercase
import QuantumKernels.Gate
/-!
Operations and the steps that stand for them. Most names differ in case only; a few gates have a
wire name of their own, and two short forms of the general one-qubit gate are spelled out.
-/

namespace QuantumKernels.Wire

/-- The wire name of an operation. -/
def wireName (name : String) : String :=
  match name with
  | "CNOT" => "cx"
  | "U" => "u3"
  | "CPhase" => "cu1"
  | "I" => "id"
  | other => Text.lowerAscii other

/-- The gate that a wire name stands for under a name of its own. -/
def aliasOf? : String → Option String
  | "u3" => some "U"
  | "cx" => some "CNOT"
  | "cu1" => some "CPhase"
  | "id" => some "I"
  | _ => none

def measureStep : String := "measure"

def quarterTurn : Float := Float.ofBits 0x3ff921fb54442d18

/-- The parameters, if there are so many. -/
def Step.exactly (s : Step) (n : Nat) : Except WireError (List Float) :=
  if s.parameters.length = n then .ok s.parameters
  else .error (.parse (.parameterCount s.name n s.parameters.length))

/-- The gate of that name on the step's qubits. -/
def Step.gate (s : Step) (name : String) (parameters : List Float) : Except WireError Operation :=
  (Kind.gate.build name s.qubits (parameters.map .real)).mapError .kernel

/-- One measurement for each qubit, into the slot at the same position. -/
def Step.measurements (s : Step) : Except WireError (List Operation) :=
  if s.memory.length = s.qubits.length then .ok (s.qubits.zipWith Operation.measure s.memory)
  else .error (.parse (.slotCount s.qubits.length s.memory.length))

/-- The operations that a step stands for. -/
def Step.operations (s : Step) : Except WireError (List Operation) :=
  let name := Text.lowerAscii s.name
  if name = measureStep then s.measurements
  else List.singleton <$>
    if name = "u1" then do s.gate "U" (0 :: 0 :: (← s.exactly 1))
    else if name = "u2" then do s.gate "U" (quarterTurn :: (← s.exactly 2))
    else match aliasOf? name with
      | some gate => s.gate gate s.parameters
      | none =>
        match Kind.gate.find? name with
        | some kind => (kind.build s.qubits (s.parameters.map .real)).mapError .kernel
        | none => .ok { name := Text.capitalize name, bits := s.qubits, parameters := s.parameters.map .real }

/-- The value of a parameter, which has to be a number. -/
def wireParameter (operation : String) : Parameter → Except WireError Float
  | .int n => .ok (Parameter.realOfInt n)
  | .real x => .ok x
  | .text s => .error (.unsupported (.symbolic s operation))
  | .complex re im => .error (.unsupported (.complex re im operation))

/-- The step that stands for an operation. -/
def Step.ofOperation (op : Operation) : Except WireError Step :=
  if op.isMeasure then
    match op.slot? with
    | some slot => .ok { name := measureStep, qubits := op.bits, memory := [slot] }
    | none => .error (.unsupported (.slot op.parameters))
  else do
    let parameters ← op.parameters.mapM (wireParameter op.name)
    return { name := wireName op.name, qubits := op.bits, parameters }

end QuantumKernels.Wire
