import QuantumKernels.Simulator.StateVector
/-!
The register of a simulation. A qubit is found by a shift of a machine word, and shifts go around the
end of the word: qubit `q` is bit `q % 64` of an index, and a register of `n` qubits has
`2 ^ (n % 64)` amplitudes. So a register of 64 qubits and more may have fewer amplitudes than its
gates look for, which ends the simulation.
-/

namespace QuantumKernels

structure Register where
  qubits : Nat
  /-- the amplitudes there are -/
  state : StateVector

namespace Register

/-- The bit that a shift by so many places sets. -/
def place (q : Nat) : Nat := q % 64

theorem place_of_lt {q : Nat} (h : q < 64) : place q = q := Nat.mod_eq_of_lt h

/-- More qubits than these have more amplitudes than memory has addresses. -/
def mostHeld : Nat := 58

/-- All qubits zero. -/
def zero (qubits : Nat) : Except DeviceError Register :=
  if mostHeld < place qubits then .error (.crash "capacity overflow")
  else .ok ⟨qubits, .zero (place qubits)⟩

/-- Where an action finds the indices that it looks for. -/
inductive Reach where
  /-- it looks for none -/
  | none
  | inside
  /-- one of them is outside of the state -/
  | outside
deriving DecidableEq, Repr

/-- What an action on these bits of an index looks for, among the indices of so many bits. On two bits
it starts from the indices with the first bit set and the second one clear. -/
def reach (bits : Nat) : StateVector.Action → List Nat → Reach
  | .single _, [q] => if q < bits then .inside else .outside
  | .controlled _, [a, b] | .exchange, [a, b] =>
    if bits ≤ a ∨ a = b then .none else if b < bits then .inside else .outside
  | _, _ => .none

def act (r : Register) (a : StateVector.Action) (bits : List Nat) : Except DeviceError Register :=
  match reach r.state.qubits a bits with
  | .none => .ok r
  | .inside => .ok { r with state := r.state.act a bits }
  | .outside => .error (.crash "index out of bounds")

/-- Applies a gate at the places of the qubits that it names. -/
def applyOperation (r : Register) (op : Operation) : Except DeviceError Register := do
  r.act (← StateVector.actionOn r.qubits op) (op.bits.map place)

/-- Reads a qubit. -/
def measure (r : Register) (q : Nat) (random : RandomStream) :
    Except DeviceError (Bool × Register × RandomStream) := do
  let (outcome, state, random) ← r.state.measure (place q) random
  return (outcome, { r with state }, random)

end Register

end QuantumKernels
