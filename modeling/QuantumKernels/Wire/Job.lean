import QuantumKernels.Json.Reading
/-!
Jobs: the request document that carries kernels to a service, one experiment for each. A job may
stand alone or in an envelope that names the device. Nearly all of its fields may be left out.
-/

namespace QuantumKernels.Wire

open Json

/-- One operation of an experiment. -/
structure Step where
  name : String
  qubits : List Nat := []
  parameters : List Float := []
  /-- the classical slots a measurement writes -/
  memory : List Nat := []
deriving DecidableEq, Inhabited, Repr

structure Experiment where
  name : String
  memorySlots : Nat := 0
  qubits : Nat := 0
  steps : List Step := []
deriving DecidableEq, Inhabited, Repr

def defaultShots : Nat := 1024

/-- How the experiments of a job are run. -/
structure JobSettings where
  shots : Nat := defaultShots
  memory : Bool := false
  measurementLevel : Nat := 2
  memorySlots : Nat := 0
  measurementReturn : String := "avg"
  memorySlotSize : Nat := 100
  qubits : Nat := 0
deriving DecidableEq, Repr

structure Job where
  id : String := ""
  schemaVersion : String := "1.1.0"
  kind : String := "QASM"
  header : Dictionary Json := ∅
  settings : JobSettings := {}
  experiments : List Experiment := []
deriving Repr

structure Envelope where
  job : Job
  device : String := ""
deriving Repr

def Step.toJson (s : Step) : Json :=
  .record (
    [("name", .text s.name), ("qubits", naturals s.qubits), ("params", listOf .real s.parameters)]
    ++ (if s.memory.isEmpty then [] else [("memory", naturals s.memory)]))

def Experiment.toJson (e : Experiment) : Json :=
  .record [
    ("header", .record [
      ("name", .text e.name),
      ("memory_slots", ofNat e.memorySlots),
      ("n_qubits", ofNat e.qubits)]),
    ("instructions", listOf Step.toJson e.steps)]

def JobSettings.toJson (s : JobSettings) : Json :=
  .record [
    ("shots", ofNat s.shots),
    ("memory", .bool s.memory),
    ("meas_level", ofNat s.measurementLevel),
    ("memory_slots", ofNat s.memorySlots),
    ("meas_return", .text s.measurementReturn),
    ("memory_slot_size", ofNat s.memorySlotSize),
    ("n_qubits", ofNat s.qubits)]

def Job.toJson (j : Job) : Json :=
  .record [
    ("qobj_id", .text j.id),
    ("schema_version", .text j.schemaVersion),
    ("type", .text j.kind),
    ("header", .record j.header.entries),
    ("config", j.settings.toJson),
    ("experiments", listOf Experiment.toJson j.experiments)]

def Envelope.toJson (e : Envelope) : Json :=
  .record [("qObject", e.job.toJson), ("backend", .record [("name", .text e.device)])]

/-- A natural number that fits half a machine word. -/
def asHalfWord : Reading Nat := asNatural (2 ^ 32 - 1)

def Step.reading : Reading Step :=
  asRecord ["name", "qubits", "params", "memory"] fun f => do
    return {
      name := ← f.required "name" asText
      qubits := ← f.orElse "qubits" (asList asWord) []
      parameters := ← f.orElse "params" (asList asReal) []
      memory := ← f.orElse "memory" (asList asWord) [] }

/-- An experiment's name, slots and qubits. -/
def Experiment.headerReading : Reading (String × Nat × Nat) :=
  asRecord ["name", "memory_slots", "n_qubits"] fun f => do
    return (← f.required "name" asText, ← f.orElse "memory_slots" asWord 0, ← f.orElse "n_qubits" asWord 0)

def Experiment.reading : Reading Experiment :=
  asRecord ["header", "instructions"] fun f => do
    let (name, memorySlots, qubits) ← f.required "header" headerReading
    return { name, memorySlots, qubits, steps := ← f.orElse "instructions" (asList Step.reading) [] }

def JobSettings.reading : Reading JobSettings :=
  asRecord ["shots", "memory", "meas_level", "memory_slots", "meas_return", "memory_slot_size", "n_qubits"]
    fun f => do
      let unset : JobSettings := {}
      return {
        shots := ← f.orElse "shots" asWord unset.shots
        memory := ← f.orElse "memory" asBool unset.memory
        measurementLevel := ← f.orElse "meas_level" asHalfWord unset.measurementLevel
        memorySlots := ← f.orElse "memory_slots" asWord unset.memorySlots
        measurementReturn := ← f.orElse "meas_return" asText unset.measurementReturn
        memorySlotSize := ← f.orElse "memory_slot_size" asHalfWord unset.memorySlotSize
        qubits := ← f.orElse "n_qubits" asWord unset.qubits }

def Job.reading : Reading Job :=
  asRecord ["qobj_id", "schema_version", "type", "header", "config", "experiments"] fun f => do
    let unset : Job := {}
    return {
      id := ← f.orElse "qobj_id" asText unset.id
      schemaVersion := ← f.orElse "schema_version" asText unset.schemaVersion
      kind := ← f.orElse "type" asText unset.kind
      header := ← f.orElse "header" (asDictionary asDocument) unset.header
      settings := ← f.orElse "config" JobSettings.reading unset.settings
      experiments := ← f.orElse "experiments" (asList Experiment.reading) unset.experiments }

def Envelope.reading : Reading Envelope :=
  asRecord ["qObject", "backend"] fun f => do
    return {
      job := ← f.required "qObject" Job.reading
      device := ← f.orElse "backend" (asRecord ["name"] fun b => b.required "name" asText) "" }

/-- The job of an envelope, or one that stands alone; what is no envelope is tried as a job. -/
def Job.documentReading : Reading Job := fun nesting v =>
  ((Envelope.reading nesting v).map Envelope.job).or (Job.reading nesting v)

end QuantumKernels.Wire
