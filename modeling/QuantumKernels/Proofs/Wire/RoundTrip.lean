import QuantumKernels.Proofs.Scope
import QuantumKernels.Proofs.Wire.Job
import QuantumKernels.Proofs.Wire.Naming

/-!
# Kernels from the jobs written for them

Compiling the job written for canonical kernels gives each of them back, flattened to the
operations that take part.
-/
namespace QuantumKernels

/-- The operations that take part, on one level under the kernel's name. -/
def Kernel.flatten (k : Kernel) : Kernel := ⟨{ name := k.name }, k.operations.map .leaf⟩

/-- Every operation that takes part is canonical. -/
def Kernel.Canonical (k : Kernel) : Prop := ∀ op ∈ k.operations, op.Canonical

/-- The reals of the operations that take part read back as written. -/
def Kernel.ReadsBack (k : Kernel) : Prop :=
  ∀ op ∈ k.operations, ∀ x : Float, .real x ∈ op.parameters → Json.ReadsBack x

namespace Wire

open Json

/-- Operations without variables declare none. -/
theorem pushAll_leaves (h : Header) (before : List Instruction) {ops : List Operation}
    (hvars : ∀ op ∈ ops, op.vars = []) :
    (Kernel.mk h before).pushAll (ops.map .leaf) = ⟨h, before ++ ops.map .leaf⟩ := by
  refine pushAll_of_declared h before fun i hi => ?_
  obtain ⟨op, hop, rfl⟩ := List.mem_map.mp hi
  rw [Instruction.declared, hvars op hop]
  exact List.nil_subset _

theorem vars_of_canonical {op : Operation} (h : op.Canonical) : op.vars = [] := by
  have hparameter : ∀ p ∈ op.parameters, p.vars = [] := by
    intro p hp
    rcases h.form with ⟨kind, hgate⟩ | hmeasure
    · obtain ⟨x, rfl, -⟩ := hgate.reals p hp
      rfl
    · obtain ⟨n, hn, -⟩ := hmeasure.slot
      rw [hn, List.mem_singleton] at hp
      rw [hp]
      rfl
  exact List.flatMap_eq_nil_iff.mpr hparameter

/-- The numbers of a step leave room for the width they call for. -/
structure Step.Bounded (s : Step) : Prop where
  qubits : ∀ q ∈ s.qubits, q < wordLimit
  parameters : ∀ x ∈ s.parameters, ReadsBack x
  memory : ∀ m ∈ s.memory, m < wordLimit

theorem Step.Bounded.writable {s : Step} (h : s.Bounded) : s.Writable :=
  ⟨fun q hq => (h.qubits q hq).le, h.parameters, fun m hm => (h.memory m hm).le⟩

theorem Step.StandsFor.bounded {s : Step} {op : Operation} (h : s.StandsFor op) (hop : op.Canonical)
    (hreals : ∀ x : Float, .real x ∈ op.parameters → ReadsBack x) : s.Bounded where
  qubits := fun q hq => hop.bits q (h.qubits ▸ hq)
  parameters := fun x hx => hreals x (h.parameters x hx)
  memory := fun m hm => by
    have := h.memory m hm
    unfold wordLimit
    omega

theorem Experiment.writable_of_bounded (name : String) {steps : List Step} (h : ∀ s ∈ steps, s.Bounded) :
    ({ name
       memorySlots := widthOf (steps.flatMap Step.memory)
       qubits := widthOf (steps.flatMap Step.qubits)
       steps } : Experiment).Writable where
  memorySlots := by
    refine widthOf_le fun m hm => ?_
    obtain ⟨s, hs, hms⟩ := List.mem_flatMap.mp hm
    exact (h s hs).memory m hms
  qubits := by
    refine widthOf_le fun q hq => ?_
    obtain ⟨s, hs, hqs⟩ := List.mem_flatMap.mp hq
    exact (h s hs).qubits q hqs
  steps := fun s hs => (h s hs).writable

/-- If the step of each operation stands for it alone, the experiment of the kernel compiles to the
flattened kernel. -/
theorem Experiment.exists_ofKernel {k : Kernel} (hvars : ∀ op ∈ k.operations, op.vars = [])
    (hsteps : ∀ op ∈ k.operations, ∃ s, Step.ofOperation op = .ok s ∧ s.operations = .ok [op] ∧ s.Bounded) :
    ∃ e, Experiment.ofKernel k = .ok e ∧ e.compile = .ok k.flatten ∧ e.Writable := by
  obtain ⟨steps, hwrite, hread, hbounded⟩ := exists_mapM_back (t := fun op => [op]) hsteps
  refine ⟨_, ?_, ?_, Experiment.writable_of_bounded k.name hbounded⟩
  · rw [Experiment.ofKernel, hwrite]
    rfl
  · have hflat : (k.operations.map fun op => [op]).flatten = k.operations := by
      rw [← List.flatMap_def, List.flatMap_singleton']
    have hpush := pushAll_leaves { name := k.name } [] hvars
    rw [Experiment.compile, hread]
    change Except.ok ((Kernel.named k.name).pushAll
      ((k.operations.map fun op => [op]).flatten.map .leaf)) = .ok k.flatten
    rw [hflat]
    exact congrArg Except.ok hpush

/-- A canonical kernel has an experiment that compiles to its flattened form. -/
theorem Experiment.ofKernel_canonical {k : Kernel} (h : k.Canonical) (hreals : k.ReadsBack) :
    ∃ e, Experiment.ofKernel k = .ok e ∧ e.compile = .ok k.flatten ∧ e.Writable := by
  refine Experiment.exists_ofKernel (fun op hop => vars_of_canonical (h op hop)) fun op hop => ?_
  obtain ⟨s, hs, hstands⟩ := Step.ofOperation_canonical (h op hop) (k.enabled_of_mem_operations hop)
  exact ⟨s, hs, hstands.operations, hstands.bounded (h op hop) (hreals op hop)⟩

theorem Job.exists_ofKernels (id : String) {shots qubits : ℕ} {kernels : List Kernel}
    {experiments : List Experiment} (hshots : shots ≤ wordLimit) (hqubits : qubits ≤ wordLimit)
    (hwrite : kernels.mapM Experiment.ofKernel = .ok experiments) (hwritable : ∀ e ∈ experiments, e.Writable) :
    ∃ job, Job.ofKernels id shots qubits kernels = .ok job ∧ job.experiments = experiments ∧ job.Writable := by
  have hslots : ∀ n ∈ experiments.map Experiment.memorySlots, n ≤ wordLimit := by
    intro n hn
    obtain ⟨e, he, rfl⟩ := List.mem_map.mp hn
    exact (hwritable e he).memorySlots
  have hwidths : ∀ n ∈ experiments.map Experiment.qubits, n ≤ wordLimit := by
    intro n hn
    obtain ⟨e, he, rfl⟩ := List.mem_map.mp hn
    exact (hwritable e he).qubits
  refine ⟨{
    id
    settings := {
      shots
      memorySlots := (experiments.map Experiment.memorySlots).foldl max 0
      qubits := (experiments.map Experiment.qubits).foldl max qubits }
    experiments }, ?_, rfl, ⟨rfl, ?_, hwritable⟩⟩
  · rw [Job.ofKernels, hwrite]
    rfl
  · exact {
      shots := hshots
      measurementLevel := (by decide : 2 < 2 ^ 32)
      memorySlots := foldl_max_le (fun n => n) hslots (Nat.zero_le _)
      memorySlotSize := (by decide : 100 < 2 ^ 32)
      qubits := foldl_max_le (fun n => n) hwidths hqubits }

/-- The job written for canonical kernels compiles to their flattened forms. -/
theorem Job.ofKernels_canonical (id : String) {shots qubits : ℕ} {kernels : List Kernel}
    (hshots : shots ≤ wordLimit) (hqubits : qubits ≤ wordLimit)
    (h : ∀ k ∈ kernels, k.Canonical) (hreals : ∀ k ∈ kernels, k.ReadsBack) :
    ∃ job, Job.ofKernels id shots qubits kernels = .ok job ∧
      job.compile = .ok ⟨kernels.map Kernel.flatten⟩ ∧ job.Writable := by
  obtain ⟨experiments, hwrite, hread, hwritable⟩ :=
    exists_mapM_back fun k hk => Experiment.ofKernel_canonical (h k hk) (hreals k hk)
  obtain ⟨job, hjob, hexperiments, hw⟩ := Job.exists_ofKernels id hshots hqubits hwrite hwritable
  refine ⟨job, hjob, ?_, hw⟩
  rw [Job.compile, hexperiments, hread]
  rfl

theorem compile_of_parse {source : String} {job : Job} (h : Job.parse source = .ok job) :
    compile source = job.compile := by
  rw [compile, h]
  rfl

theorem width_le_wordLimit {k : Kernel} (h : ∀ op ∈ k.leaves, ∀ q ∈ op.bits, q < wordLimit) :
    k.width ≤ wordLimit := by
  refine widthOf_le fun q hq => ?_
  obtain ⟨op, hop, hqop⟩ := List.mem_flatMap.mp hq
  exact h op hop q hqop

/-- Writing canonical kernels as a job and compiling its text gives each kernel back, in order,
under its name and flattened to the operations that take part. The text written for a single
kernel is a case of this, on as many qubits as the kernel has. -/
theorem compile_seal_ofKernels (c : Compiler) (id : String) {shots qubits : ℕ}
    {kernels : List Kernel} (hshots : shots ≤ wordLimit) (hqubits : qubits ≤ wordLimit)
    (h : ∀ k ∈ kernels, k.Canonical) (hreals : ∀ k ∈ kernels, k.ReadsBack) :
    (∃ job, Job.ofKernels id shots qubits kernels = .ok job ∧
      compile (c.seal job) = .ok ⟨kernels.map Kernel.flatten⟩) ∧
    (c.shots ≤ wordLimit → ∀ k ∈ kernels, (∀ op ∈ k.leaves, ∀ q ∈ op.bits, q < wordLimit) →
      ∃ text, c.translate id k = .ok text ∧ compile text = .ok ⟨[k.flatten]⟩) := by
  constructor
  · obtain ⟨job, hjob, hcompile, hwritable⟩ := Job.ofKernels_canonical id hshots hqubits h hreals
    exact ⟨job, hjob, (compile_of_parse (c.parse_seal hwritable)).trans hcompile⟩
  · intro hc k hk hbits
    have hone : ∀ k' ∈ [k], k'.Canonical := by simpa using h k hk
    have hreals' : ∀ k' ∈ [k], k'.ReadsBack := by simpa using hreals k hk
    obtain ⟨job, hjob, hcompile, hwritable⟩ :=
      Job.ofKernels_canonical id hc (width_le_wordLimit hbits) hone hreals'
    refine ⟨c.seal job, ?_, (compile_of_parse (c.parse_seal hwritable)).trans hcompile⟩
    rw [Compiler.translate, hjob]
    rfl

/-- A kernel with a name that needs escapes, a block, a rotation, a disabled gate and a measurement. -/
def oddKernel : Kernel :=
  ⟨{ name := "it's \"True\" \\" }, [
    .leaf { name := "H", bits := [0] },
    .block { name := "inner" } [
      .leaf { name := "Rx", bits := [1], parameters := [.real 0.5] },
      .leaf { name := "unknown", bits := [0], enabled := false }],
    .leaf (.measure 1 3)]⟩

theorem oddKernel_operations : oddKernel.operations =
    [{ name := "H", bits := [0] }, { name := "Rx", bits := [1], parameters := [.real 0.5] },
      .measure 1 3] := rfl

theorem oddKernel_canonical : oddKernel.Canonical := by
  intro op hop
  rw [oddKernel_operations] at hop
  simp only [List.mem_cons, List.not_mem_nil, or_false] at hop
  rcases hop with rfl | rfl | rfl
  · have hfits : Operation.FitsGate { name := "H", bits := [0] } ⟨"H", 1, 0, false⟩ :=
      ⟨by decide, by decide, rfl, rfl, rfl, by simp⟩
    exact ⟨rfl, by decide, .inl ⟨_, hfits⟩⟩
  · have hfits : Operation.FitsGate { name := "Rx", bits := [1], parameters := [.real 0.5] }
        ⟨"Rx", 1, 1, false⟩ :=
      ⟨by decide, by decide, rfl, rfl, rfl, by
        simpa using (by decide +kernel : (0.5 : Float).isFinite = true)⟩
    exact ⟨rfl, by decide, .inl ⟨_, hfits⟩⟩
  · exact ⟨rfl, by decide, .inr ⟨rfl, rfl, 3, rfl, by decide⟩⟩

theorem oddKernel_readsBack : oddKernel.ReadsBack := by
  intro op hop x hx
  rw [oddKernel_operations] at hop
  simp only [List.mem_cons, List.not_mem_nil, or_false] at hop
  rcases hop with rfl | rfl | rfl
  · simp at hx
  · obtain rfl : x = 0.5 := by simpa using hx
    exact readsBack_half
  · simp [Operation.measure] at hx

theorem compile_seal_ofKernels_oddKernel :
    (∃ job, Job.ofKernels "job" 100 5 [oddKernel, oddKernel] = .ok job ∧
      compile (Compiler.seal {} job) = .ok ⟨[oddKernel.flatten, oddKernel.flatten]⟩) ∧
    ∃ text, Compiler.translate {} "job" oddKernel = .ok text ∧
      compile text = .ok ⟨[oddKernel.flatten]⟩ := by
  have hback := @compile_seal_ofKernels {} "job" 100 5 [oddKernel, oddKernel] (by decide) (by decide)
    (by simpa using oddKernel_canonical) (by simpa using oddKernel_readsBack)
  exact ⟨hback.1, hback.2 (by decide) oddKernel (by simp) (by decide)⟩

end Wire

end QuantumKernels
