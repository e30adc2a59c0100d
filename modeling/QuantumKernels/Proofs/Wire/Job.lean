import QuantumKernels.Proofs.Json.Reading
import QuantumKernels.Proofs.Wire.Literal
import QuantumKernels.Wire.Compiler

/-!
# Jobs from their text

A source is a job if it is a readable document with the shape of one. The text of a sealed
job parses to it, as long as its numbers fit their types and its reals read back as written.
-/
namespace QuantumKernels.Wire

open Json

/-- The numbers of a step fit machine words and its reals read back as written. -/
structure Step.Writable (s : Step) : Prop where
  qubits : ∀ q ∈ s.qubits, q ≤ wordLimit
  parameters : ∀ x ∈ s.parameters, ReadsBack x
  memory : ∀ m ∈ s.memory, m ≤ wordLimit

structure Experiment.Writable (e : Experiment) : Prop where
  memorySlots : e.memorySlots ≤ wordLimit
  qubits : e.qubits ≤ wordLimit
  steps : ∀ s ∈ e.steps, s.Writable

structure JobSettings.Writable (s : JobSettings) : Prop where
  shots : s.shots ≤ wordLimit
  measurementLevel : s.measurementLevel < 2 ^ 32
  memorySlots : s.memorySlots ≤ wordLimit
  memorySlotSize : s.memorySlotSize < 2 ^ 32
  qubits : s.qubits ≤ wordLimit

/-- A job without header entries, all of whose numbers fit. -/
structure Job.Writable (j : Job) : Prop where
  header : j.header = ∅
  settings : j.settings.Writable
  experiments : ∀ e ∈ j.experiments, e.Writable

namespace Step

theorem reading_toJson {s : Step} (h : s.Writable) (nesting : ℕ) :
    Step.reading (nesting + 2) s.toJson = some s := by
  have hqubits := asList_naturals h.qubits nesting
  have hparameters : asList asReal (nesting + 1) (listOf .real s.parameters) = some s.parameters :=
    asList_listOf fun x _ => asReal_real nesting x
  have hmemory := asList_naturals h.memory nesting
  obtain ⟨name, qubits, parameters, memory⟩ := s
  cases memory with
  | nil =>
    simp [Step.reading, Step.toJson, asRecord, Fields.required, Fields.orElse, asText, hqubits,
      hparameters]
  | cons m rest =>
    simp [Step.reading, Step.toJson, asRecord, Fields.required, Fields.orElse, asText, hqubits,
      hparameters, hmemory]

theorem legible_toJson {s : Step} (h : s.Writable) : Legible s.toJson := by
  have hqubits : Legible (naturals s.qubits) :=
    legible_listOf fun q hq => legible_ofNat (h.qubits q hq)
  have hparameters : Legible (listOf .real s.parameters) :=
    legible_listOf fun x hx => .real (h.parameters x hx)
  have hmemory : Legible (naturals s.memory) :=
    legible_listOf fun m hm => legible_ofNat (h.memory m hm)
  refine .record ?_
  split <;> simp [Legible.text, hqubits, hparameters, hmemory]

theorem isReadable_toJson (s : Step) (nesting : ℕ) : isReadable (nesting + 2) s.toJson := by
  have hparameters : isReadable (nesting + 1) (listOf .real s.parameters) :=
    isReadable_listOf fun x _ => isReadable_real nesting x
  unfold Step.toJson
  split <;> simp [isReadable, isReadable_naturals, hparameters]

end Step

namespace Experiment

theorem reading_toJson {e : Experiment} (h : e.Writable) (nesting : ℕ) :
    Experiment.reading (nesting + 4) e.toJson = some e := by
  have hheader : headerReading (nesting + 3) (.record [("name", .text e.name),
      ("memory_slots", ofNat e.memorySlots), ("n_qubits", ofNat e.qubits)]) =
        some (e.name, e.memorySlots, e.qubits) := by
    simp [headerReading, asRecord, Fields.required, Fields.orElse, asText,
      asWord_ofNat h.memorySlots, asWord_ofNat h.qubits]
  have hsteps : asList Step.reading (nesting + 3) (listOf Step.toJson e.steps) = some e.steps :=
    asList_listOf fun s hs => Step.reading_toJson (h.steps s hs) nesting
  simp [Experiment.reading, Experiment.toJson, asRecord, Fields.required, Fields.orElse, hheader,
    hsteps]

theorem legible_toJson {e : Experiment} (h : e.Writable) : Legible e.toJson := by
  have hheader : Legible (.record [("name", .text e.name), ("memory_slots", ofNat e.memorySlots),
      ("n_qubits", ofNat e.qubits)]) := by
    refine .record ?_
    simp [Legible.text, legible_ofNat h.memorySlots, legible_ofNat h.qubits]
  have hsteps : Legible (listOf Step.toJson e.steps) :=
    legible_listOf fun s hs => Step.legible_toJson (h.steps s hs)
  refine .record ?_
  simp [hheader, hsteps]

theorem isReadable_toJson (e : Experiment) (nesting : ℕ) : isReadable (nesting + 4) e.toJson := by
  have hsteps : isReadable (nesting + 3) (listOf Step.toJson e.steps) :=
    isReadable_listOf fun s _ => s.isReadable_toJson nesting
  simp [Experiment.toJson, isReadable, isReadable_ofNat, hsteps]

end Experiment

namespace JobSettings

theorem reading_toJson {s : JobSettings} (h : s.Writable) (nesting : ℕ) :
    JobSettings.reading (nesting + 1) s.toJson = some s := by
  have hlevel : asHalfWord nesting (ofNat s.measurementLevel) = some s.measurementLevel :=
    asNatural_ofNat (by have := h.measurementLevel; omega) nesting
  have hsize : asHalfWord nesting (ofNat s.memorySlotSize) = some s.memorySlotSize :=
    asNatural_ofNat (by have := h.memorySlotSize; omega) nesting
  simp [JobSettings.reading, JobSettings.toJson, asRecord, Fields.orElse, asText, asBool,
    asWord_ofNat h.shots, asWord_ofNat h.memorySlots, asWord_ofNat h.qubits, hlevel, hsize]

theorem legible_toJson {s : JobSettings} (h : s.Writable) : Legible s.toJson := by
  have hlevel : Legible (ofNat s.measurementLevel) :=
    legible_ofNat (by have := h.measurementLevel; unfold wordLimit; omega)
  have hsize : Legible (ofNat s.memorySlotSize) :=
    legible_ofNat (by have := h.memorySlotSize; unfold wordLimit; omega)
  refine .record ?_
  simp [Legible.text, Legible.bool, legible_ofNat h.shots, legible_ofNat h.memorySlots,
    legible_ofNat h.qubits, hlevel, hsize]

theorem isReadable_toJson (s : JobSettings) (nesting : ℕ) : isReadable (nesting + 1) s.toJson := by
  simp [JobSettings.toJson, isReadable, isReadable_ofNat, isReadable_text, isReadable_bool]

end JobSettings

namespace Job

theorem reading_toJson {j : Job} (h : j.Writable) (nesting : ℕ) :
    Job.reading (nesting + 6) j.toJson = some j := by
  have hheader : asDictionary asDocument (nesting + 5) (.record j.header.entries) = some j.header := by
    rw [h.header]
    rfl
  have hexperiments : asList Experiment.reading (nesting + 5) (listOf Experiment.toJson j.experiments) =
      some j.experiments :=
    asList_listOf fun e he => Experiment.reading_toJson (h.experiments e he) nesting
  simp [Job.reading, Job.toJson, asRecord, Fields.orElse, asText, hheader,
    JobSettings.reading_toJson h.settings, hexperiments]

theorem legible_toJson {j : Job} (h : j.Writable) : Legible j.toJson := by
  have hheader : Legible (.record j.header.entries) := by
    have hempty : (∅ : Dictionary Json).entries = [] := rfl
    rw [h.header, hempty]
    exact .record (by simp)
  have hexperiments : Legible (listOf Experiment.toJson j.experiments) :=
    legible_listOf fun e he => Experiment.legible_toJson (h.experiments e he)
  refine .record ?_
  simp [Legible.text, hheader, JobSettings.legible_toJson h.settings, hexperiments]

theorem isReadable_toJson {j : Job} (h : j.header = ∅) (nesting : ℕ) :
    isReadable (nesting + 6) j.toJson := by
  have hempty : (∅ : Dictionary Json).entries = [] := rfl
  have hexperiments : isReadable (nesting + 5) (listOf Experiment.toJson j.experiments) :=
    isReadable_listOf fun e _ => e.isReadable_toJson nesting
  simp [Job.toJson, isReadable, h, hempty, JobSettings.isReadable_toJson, hexperiments]

/-- A source is a job exactly if, in normal spelling, it is a readable document that has the
shape of an envelope or of a job. -/
theorem parse_eq_ok {source : String} {job : Job} :
    Job.parse source = .ok job ↔ ∃ v, Json.read (normalize source) = some v ∧
      isReadable nestingLimit v ∧ Job.documentReading nestingLimit v = some job := by
  constructor
  · intro h
    simp only [Job.parse] at h
    split at h
    · simp at h
    · rename_i v hfront
      split at h
      · rename_i hreadable
        split at h
        · simp at h
        · rename_i j hreading
          split at h
          · rename_i hread
            obtain ⟨w, hw⟩ := Option.isSome_iff_exists.mp hread
            have hsame : some w = some v := (front?_of_read hw).symm.trans hfront
            have hjob : j = job := by simpa using h
            exact ⟨v, hsame ▸ hw, hreadable, hjob ▸ hreading⟩
          · simp at h
      · simp at h
  · rintro ⟨v, hread, hreadable, hreading⟩
    simp [Job.parse, front?_of_read hread, hreadable, hreading, hread]

end Job

theorem Envelope.reading_toJson {j : Job} (h : j.Writable) (device : String) (nesting : ℕ) :
    Envelope.reading (nesting + 7) (Envelope.toJson ⟨j, device⟩) = some ⟨j, device⟩ := by
  simp [Envelope.reading, Envelope.toJson, asRecord, Fields.required, Fields.orElse, asText,
    Job.reading_toJson h]

/-- A sealed job parses to the job. -/
theorem Compiler.parse_seal (c : Compiler) {job : Job} (h : job.Writable) :
    Job.parse (c.seal job) = .ok job := by
  have hlegible : Legible (Envelope.toJson ⟨job, c.device⟩) := by
    refine .record ?_
    have hdevice : Legible (.record [("name", .text c.device)]) := .record (by simp [Legible.text])
    simp [Job.legible_toJson h, hdevice]
  have hnormal : normalize (c.seal job) = c.seal job := normalize_compact hlegible
  refine Job.parse_eq_ok.mpr ⟨Envelope.toJson ⟨job, c.device⟩, ?_, ?_, ?_⟩
  · rw [hnormal]
    exact read_compact hlegible
  · have hjob := Job.isReadable_toJson h.header 120
    simp [Envelope.toJson, nestingLimit, isReadable, hjob]
  · have hreading := Envelope.reading_toJson h c.device 120
    simp [Job.documentReading, nestingLimit, hreading]

end QuantumKernels.Wire
