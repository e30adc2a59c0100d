import QuantumKernels.Wire.Naming
import QuantumKernels.Proofs.Tree

/-!
# Wire names of canonical operations

An operation is canonical if it has the form in which a step of a job is read: the name of a
gate and as many bits and real parameters as the gate takes, or a measurement of one qubit
into a slot. The step that stands for a canonical operation stands for nothing else.
-/
namespace QuantumKernels

/-- As many bits and finite real parameters as the gate of that name takes. -/
structure Operation.FitsGate (op : Operation) (kind : OperationKind) : Prop where
  known : kind ∈ Kind.gate.table
  unitary : kind.name ≠ Operation.measureName
  name : op.name = kind.name
  bits : op.bits.length = kind.bits
  parameters : op.parameters.length = kind.parameters
  reals : ∀ p ∈ op.parameters, ∃ x : Float, p = .real x ∧ x.isFinite

/-- A measurement of one qubit into a slot. -/
structure Operation.FitsMeasure (op : Operation) : Prop where
  name : op.name = Operation.measureName
  bits : op.bits.length = 1
  slot : ∃ n : Int64, op.parameters = [.int n] ∧ 0 ≤ n.toInt

structure Operation.Canonical (op : Operation) : Prop where
  digital : op.analog = false
  bits : ∀ q ∈ op.bits, q < Json.wordLimit
  form : (∃ kind, op.FitsGate kind) ∨ op.FitsMeasure

theorem Instruction.enabled_of_mem_operations {i : Instruction} {op : Operation}
    (h : op ∈ i.operations) : op.enabled := by
  induction i using tree_induction with
  | leaf op' =>
    simp only [operations] at h
    split at h
    · rename_i henabled
      rw [List.mem_singleton.mp h]
      exact henabled
    · simp at h
  | block hd body ih =>
    simp only [operations] at h
    split at h
    · rw [operationsOf_eq] at h
      obtain ⟨i, hi, hop⟩ := List.mem_flatMap.mp h
      exact ih i hi hop
    · simp at h

theorem Kernel.enabled_of_mem_operations {k : Kernel} {op : Operation} (h : op ∈ k.operations) :
    op.enabled := by
  rw [operations_eq] at h
  obtain ⟨i, -, hop⟩ := List.mem_flatMap.mp h
  exact Instruction.enabled_of_mem_operations hop

namespace Wire

theorem lowerAscii_eq (s : String) : Text.lowerAscii s = String.ofList (s.toList.map Char.toLower) :=
  String.map_eq_internal

/-- A wire name that is read as a gate, in one step and by no short form. -/
def NamesKind (name : String) (kind : OperationKind) : Prop :=
  name ≠ measureStep ∧ name ≠ "u1" ∧ name ≠ "u2" ∧
    Kind.gate.find? ((aliasOf? name).getD name) = some kind

/-- The wire name of each gate leads back to the gate. -/
theorem namesKind_wireName : ∀ kind ∈ Kind.gate.table, kind.name ≠ Operation.measureName →
    NamesKind (Text.lowerAscii (wireName kind.name)) kind := by
  simp only [NamesKind, Kind.find?, Text.sameIgnoringCase, lowerAscii_eq]
  decide +kernel

theorem defaults_gate : ∀ kind ∈ Kind.gate.table, kind.parameters = 0 → kind.defaults = [] := by
  decide

theorem digital_gate : ∀ kind ∈ Kind.gate.table, kind.analog = false := by decide

theorem build_gate {kind : OperationKind} (hkind : kind ∈ Kind.gate.table) {bits : List ℕ}
    {parameters : List Parameter} (hbits : bits.length = kind.bits)
    (hparameters : parameters.length = kind.parameters) :
    kind.build bits parameters = .ok { name := kind.name, bits, parameters } := by
  have hdefaults : (if parameters.isEmpty then kind.defaults else parameters) = parameters := by
    split
    · rename_i hempty
      rw [List.isEmpty_iff] at hempty
      rw [hempty, defaults_gate kind hkind (by rw [← hparameters, hempty]; rfl)]
    · rfl
  unfold OperationKind.build
  simp only [hdefaults]
  simp [hbits, hparameters, digital_gate kind hkind]

/-- A step with the wire name of a gate stands for the gate on its qubits. -/
theorem Step.operations_of_namesKind {s : Step} {kind : OperationKind}
    (hname : NamesKind (Text.lowerAscii s.name) kind) {op : Operation}
    (hbuild : kind.build s.qubits (s.parameters.map .real) = .ok op) :
    s.operations = .ok [op] := by
  obtain ⟨hmeasure, hu1, hu2, hkind⟩ := hname
  simp only [Step.operations, if_neg hmeasure, if_neg hu1, if_neg hu2]
  cases hα : aliasOf? (Text.lowerAscii s.name) with
  | some gate =>
    rw [hα, Option.getD_some] at hkind
    simp [Step.gate, Kind.build, hkind, hbuild, Except.mapError, List.singleton]
  | none =>
    rw [hα, Option.getD_none] at hkind
    simp [hkind, hbuild, Except.mapError, List.singleton]

theorem mapM_wireParameter (name : String) (xs : List Float) :
    (xs.map Parameter.real).mapM (wireParameter name) = .ok xs := by
  induction xs with
  | nil => rfl
  | cons x rest ih =>
    rw [List.map_cons, List.mapM_cons, ih]
    rfl

/-- Parameters that are all reals are the image of a list of reals. -/
theorem exists_reals {ps : List Parameter} (h : ∀ p ∈ ps, ∃ x : Float, p = .real x ∧ x.isFinite) :
    ∃ xs : List Float, ps = xs.map Parameter.real := by
  induction ps with
  | nil => exact ⟨[], rfl⟩
  | cons p rest ih =>
    obtain ⟨x, rfl, -⟩ := h p (by simp)
    obtain ⟨xs, rfl⟩ := ih fun q hq => h q (by simp [hq])
    exact ⟨x :: xs, rfl⟩

/-- A step that stands for one operation and names nothing but its bits, reals and slot. -/
structure Step.StandsFor (s : Step) (op : Operation) : Prop where
  operations : s.operations = .ok [op]
  qubits : s.qubits = op.bits
  parameters : ∀ x ∈ s.parameters, .real x ∈ op.parameters
  memory : ∀ m ∈ s.memory, m < 2 ^ 63

theorem Step.ofOperation_gate {op : Operation} {kind : OperationKind} (h : op.FitsGate kind)
    (henabled : op.enabled) (hdigital : op.analog = false) :
    ∃ s, Step.ofOperation op = .ok s ∧ s.StandsFor op := by
  obtain ⟨xs, hxs⟩ := exists_reals h.reals
  have hmeasure : op.isMeasure = false := by
    simp [Operation.isMeasure, h.name, h.unitary]
  refine ⟨{ name := wireName op.name, qubits := op.bits, parameters := xs }, ?_, ?_, rfl, ?_, ?_⟩
  · simp only [Step.ofOperation, hmeasure, hxs, mapM_wireParameter]
    rfl
  · have hbuild : kind.build op.bits (xs.map .real) = .ok op := by
      rw [build_gate h.known h.bits (by rw [← hxs, h.parameters]), ← hxs, ← h.name]
      simp [← henabled, ← hdigital]
    exact Step.operations_of_namesKind (h.name ▸ namesKind_wireName kind h.known h.unitary) hbuild
  · intro x hx
    rw [hxs]
    exact List.mem_map_of_mem hx
  · simp

theorem Step.ofOperation_measure {op : Operation} (h : op.FitsMeasure) (henabled : op.enabled)
    (hdigital : op.analog = false) : ∃ s, Step.ofOperation op = .ok s ∧ s.StandsFor op := by
  obtain ⟨n, hn, hpos⟩ := h.slot
  obtain ⟨q, hq⟩ := List.length_eq_one_iff.mp h.bits
  have hmeasure : op.isMeasure = true := by simp [Operation.isMeasure, h.name]
  have hslot : op.slot? = some n.toInt.toNat := by simp [Operation.slot?, hmeasure, hn, hpos]
  have hback : Int64.ofNat n.toInt.toNat = n := by
    rw [← Int64.ofInt_eq_ofNat, Int.toNat_of_nonneg hpos, Int64.ofInt_toInt]
  have hlimit : n.toInt.toNat < 2 ^ 63 := by
    have := n.toInt_lt
    omega
  refine ⟨{ name := measureStep, qubits := op.bits, memory := [n.toInt.toNat] }, ?_, ?_, rfl, ?_, ?_⟩
  · simp [Step.ofOperation, hmeasure, hslot]
  · have hlower : Text.lowerAscii measureStep = measureStep := by
      simp [lowerAscii_eq, measureStep]
    obtain ⟨name, bits, parameters, enabled, analog⟩ := op
    obtain rfl : name = Operation.measureName := h.name
    obtain rfl : bits = [q] := hq
    obtain rfl : parameters = [.int n] := hn
    obtain rfl : enabled = true := henabled
    obtain rfl : analog = false := hdigital
    simpa [Step.operations, Step.measurements, hlower, Operation.measure] using hback
  · simp
  · simpa using hlimit

/-- The step of a canonical operation stands for the operation. -/
theorem Step.ofOperation_canonical {op : Operation} (h : op.Canonical) (henabled : op.enabled) :
    ∃ s, Step.ofOperation op = .ok s ∧ s.StandsFor op := by
  rcases h.form with ⟨kind, hgate⟩ | hmeasure
  · exact Step.ofOperation_gate hgate henabled h.digital
  · exact Step.ofOperation_measure hmeasure henabled h.digital

end Wire

end QuantumKernels
