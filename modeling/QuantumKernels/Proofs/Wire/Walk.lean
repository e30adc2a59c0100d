import QuantumKernels.Graph.Dependency
import QuantumKernels.Proofs.View
import QuantumKernels.Proofs.Wire.Recompilation
import QuantumKernels.Simulator.Plan
import Mathlib.Order.Bounds.Basic

/-!
# Requests describe what is run

A walk over the enabled copy of a kernel meets the operations that take part, in order, so the
experiment written down on the way is the one made from their list. A job has one such experiment
for each kernel, in order, and is just wide enough for all of them. There is none exactly if an
operation that takes part cannot be written as a step.
-/
namespace QuantumKernels

/-- The classical slots that a kernel measures into. -/
def Kernel.slots (k : Kernel) : List ℕ := k.operations.filterMap Operation.slot?

/-- A plan runs the operations that take part. -/
theorem Plan.operations_of_ofKernel {k : Kernel} {size limit : ℕ} {p : Plan} (h : ofKernel k size limit = .ok p) :
    p.operations = k.operations := by
  unfold ofKernel at h
  dsimp only at h
  split_ifs at h
  obtain ⟨measured, -, h⟩ := bind_eq_ok_iff.mp h
  cases h
  rfl

theorem isGreatest_foldl_max (l : List ℕ) (start : ℕ) :
    IsGreatest (insert start {n | n ∈ l}) (l.foldl max start) := by
  obtain ⟨hstart, hle⟩ := (@foldl_max_le_iff (fun n => n) l start _).mp le_rfl
  refine ⟨?_, fun n hn => hn.elim (fun h => h ▸ hstart) (hle n)⟩
  clear hstart hle
  induction l generalizing start with
  | nil => exact .inl rfl
  | cons n rest ih =>
    rw [List.foldl_cons]
    rcases ih (max start n) with h | h
    · rw [h]
      rcases max_choice start n with h | h <;> rw [h]
      · exact .inl rfl
      · exact .inr List.mem_cons_self
    · exact .inr (List.mem_cons_of_mem n h)

/-- The width of a list is the least number above its numbers. -/
theorem isLeast_widthOf (l : List ℕ) : IsLeast {bound | ∀ n ∈ l, n < bound} (widthOf l) :=
  ⟨fun _ => lt_widthOf, fun _ => widthOf_le⟩

theorem widthOf_append (l l' : List ℕ) : widthOf (l ++ l') = max (widthOf l) (widthOf l') := by
  refine eq_of_forall_ge_iff fun bound => ?_
  simp only [widthOf_le_iff, max_le_iff, List.forall_mem_append]

theorem elim_max?_eq_widthOf (l : List ℕ) : l.max?.elim 0 (· + 1) = widthOf l := by
  cases hmax : l.max? with
  | none =>
    rw [List.max?_eq_none_iff.mp hmax]
    rfl
  | some top =>
    obtain ⟨hmem, hle⟩ := List.max?_eq_some_iff.mp hmax
    exact le_antisymm (lt_widthOf hmem) (widthOf_le fun n hn => Nat.lt_succ_of_le (hle n hn))

namespace Wire

/-- What a walk has written down: the steps so far, and the last slot and qubit that they use. -/
structure Draft where
  steps : List Step := []
  lastSlot : Option ℕ := none
  lastQubit : Option ℕ := none

namespace Draft

def add (d : Draft) (s : Step) : Draft where
  steps := d.steps ++ [s]
  lastSlot := max d.lastSlot s.memory.max?
  lastQubit := max d.lastQubit s.qubits.max?

/-- An operation is written down as a step; nothing is for a block itself. -/
def take (d : Draft) : Instruction → Except WireError Draft
  | .leaf op => d.add <$> Step.ofOperation op
  | .block .. => .ok d

def experiment (d : Draft) (name : String) : Experiment where
  name := name
  memorySlots := d.lastSlot.elim 0 (· + 1)
  qubits := d.lastQubit.elim 0 (· + 1)
  steps := d.steps

theorem elim_max (a b : Option ℕ) :
    (max a b).elim 0 (· + 1) = max (a.elim 0 (· + 1)) (b.elim 0 (· + 1)) := by
  cases a <;> cases b <;> simp

theorem experiment_foldl_add (name : String) (steps : List Step) (d : Draft) :
    (steps.foldl add d).experiment name = {
      name
      memorySlots := max (d.experiment name).memorySlots (widthOf (steps.flatMap Step.memory))
      qubits := max (d.experiment name).qubits (widthOf (steps.flatMap Step.qubits))
      steps := d.steps ++ steps } := by
  induction steps generalizing d with
  | nil => simp [experiment, widthOf]
  | cons s rest ih =>
    rw [List.foldl_cons, ih]
    simp [experiment, add, elim_max, widthOf_append, elim_max?_eq_widthOf, max_assoc]

theorem foldlM_take_preorder (d : Draft) (visited : List Instruction) :
    visited.foldlM take d = (visited.filterMap Instruction.operation?).foldlM
      (fun d op => d.add <$> Step.ofOperation op) d := by
  rw [List.foldlM_filterMap]
  congr 1
  funext d i
  cases i <;> rfl

theorem foldlM_add (d : Draft) (ops : List Operation) :
    ops.foldlM (fun d op => d.add <$> Step.ofOperation op) d =
      (fun steps => steps.foldl add d) <$> ops.mapM Step.ofOperation := by
  induction ops generalizing d with
  | nil => rfl
  | cons op rest ih =>
    rw [List.foldlM_cons, List.mapM_cons]
    simp only [ih]
    cases Step.ofOperation op with
    | error fault => rfl
    | ok s => cases rest.mapM Step.ofOperation <;> rfl

end Draft

/-- The experiment written down on a walk over a kernel. -/
def Experiment.ofWalk (k : Kernel) : Except WireError Experiment :=
  (fun d => d.experiment k.name) <$> visit Draft.take {} k

/-- The walk writes down the experiment that is made from the list of operations. -/
theorem Experiment.ofWalk_eq (k : Kernel) : Experiment.ofWalk k = Experiment.ofKernel k := by
  rw [ofWalk, visit, Draft.foldlM_take_preorder, k.filterMap_preorder_view, Draft.foldlM_add, ofKernel]
  cases k.operations.mapM Step.ofOperation with
  | error fault => rfl
  | ok steps =>
    have hdraft := Draft.experiment_foldl_add k.name steps {}
    simp only [Draft.experiment, Option.elim_none, Nat.zero_max, List.nil_append] at hdraft
    exact congrArg Except.ok hdraft

end Wire

/-- How an operation is written: a measurement under its own name with the slot that its first
parameter is, any other operation under its wire name with the values of its parameters. -/
inductive Operation.WrittenAs (op : Operation) : Wire.Step → Prop
  | measurement {slot : Int64} (name : op.name = measureName) (first : op.parameters.head? = some (.int slot))
      (natural : 0 ≤ slot.toInt) :
      WrittenAs op { name := "measure", qubits := op.bits, memory := [slot.toInt.toNat] }
  | gate {values : List Float} (name : op.name ≠ measureName)
      (numbers : op.parameters.map Parameter.toReal? = values.map some) :
      WrittenAs op { name := Wire.wireName op.name, qubits := op.bits, parameters := values }

/-- A measurement whose first parameter is no natural number, or any other operation with a text or a
complex number for a parameter. -/
inductive Operation.Unwritable (op : Operation) : Prop
  | measurement (name : op.name = measureName)
      (first : ∀ slot : Int64, 0 ≤ slot.toInt → op.parameters.head? ≠ some (.int slot))
  | text {s : String} (name : op.name ≠ measureName) (parameter : .text s ∈ op.parameters)
  | complex {re im : Float} (name : op.name ≠ measureName) (parameter : .complex re im ∈ op.parameters)

namespace Wire

theorem wireParameter_eq_ok {name : String} {p : Parameter} {x : Float} :
    wireParameter name p = .ok x ↔ p.toReal? = some x := by
  cases p <;> simp [wireParameter, Parameter.toReal?]

theorem Step.ofOperation_eq_ok_iff {op : Operation} {s : Step} :
    Step.ofOperation op = .ok s ↔ op.WrittenAs s := by
  have hmapM : ∀ values : List Float, op.parameters.mapM (wireParameter op.name) = .ok values ↔
      op.parameters.map Parameter.toReal? = values.map some := fun values => by
    rw [mapM_eq_ok_iff, map_eq_map_iff_forall₂]
    simp only [wireParameter_eq_ok]
  constructor
  · intro h
    rcases Step.ofOperation_eq_ok h with ⟨slot, hslot, rfl⟩ | ⟨hmeasure, values, hvalues, rfl⟩
    · obtain ⟨hname, n, hhead, hnonneg, rfl⟩ := slot?_eq_some hslot
      exact .measurement hname hhead hnonneg
    · exact .gate (by simpa [Operation.isMeasure] using hmeasure) ((hmapM values).mp hvalues)
  · rintro (⟨hname, hhead, hnonneg⟩ | ⟨hname, hvalues⟩)
    · simp [Step.ofOperation, Operation.isMeasure, Operation.slot?, hname, hhead, hnonneg, measureStep]
    · simp [Step.ofOperation, Operation.isMeasure, hname, (hmapM _).mpr hvalues, bind, Except.bind, pure, Except.pure]

theorem exists_writtenAs_iff {op : Operation} : (∃ s, op.WrittenAs s) ↔ ¬ op.Unwritable := by
  constructor
  · rintro ⟨s, hwritten⟩ hnone
    cases hwritten with
    | measurement hname hfirst hnatural =>
      cases hnone with
      | measurement _ hnoslot => exact hnoslot _ hnatural hfirst
      | text hother => exact hother hname
      | complex hother => exact hother hname
    | gate hname hnumbers =>
      have hnumber : ∀ p ∈ op.parameters, p.toReal? ≠ none := by
        intro p hp hp'
        have hmem := List.mem_map_of_mem (f := Parameter.toReal?) hp
        rw [hnumbers, hp'] at hmem
        obtain ⟨x, -, hx⟩ := List.mem_map.mp hmem
        cases hx
      cases hnone with
      | measurement hmeasure => exact hname hmeasure
      | text _ hp => exact hnumber _ hp rfl
      | complex _ hp => exact hnumber _ hp rfl
  · intro h
    by_cases hname : op.name = Operation.measureName
    · by_contra hnone
      exact h (.measurement hname fun slot hnatural hfirst => hnone ⟨_, .measurement hname hfirst hnatural⟩)
    · have hnumbers : ∀ p ∈ op.parameters, ∃ x : Float, p.toReal? = some x := by
        intro p hp
        cases p with
        | int n => exact ⟨_, rfl⟩
        | real x => exact ⟨x, rfl⟩
        | text s => exact absurd (.text hname hp) h
        | complex re im => exact absurd (.complex hname hp) h
      obtain ⟨values, hvalues⟩ := exists_forall₂_iff.mpr hnumbers
      exact ⟨_, .gate hname (map_eq_map_iff_forall₂.mpr hvalues)⟩

/-- The experiment of a kernel: under the kernel's name, the steps of the operations that take part,
one for one and in order, and no more slots and qubits than the steps call for. -/
structure Experiment.Describes (e : Experiment) (k : Kernel) : Prop where
  name : e.name = k.name
  steps : List.Forall₂ Operation.WrittenAs k.operations e.steps
  slots : IsLeast {bound | ∀ slot ∈ e.steps.flatMap Step.memory, slot < bound} e.memorySlots
  qubits : IsLeast {bound | ∀ q ∈ e.steps.flatMap Step.qubits, q < bound} e.qubits

/-- The job of a list of kernels: one experiment for each, in order, and settings that are wide enough
for all of them and for so many qubits. -/
structure Job.Describes (job : Job) (id : String) (shots qubits : ℕ) (kernels : List Kernel) : Prop where
  form : job = {
    id
    settings := { shots, memorySlots := job.settings.memorySlots, qubits := job.settings.qubits }
    experiments := job.experiments }
  experiments : List.Forall₂ (fun k e => Experiment.Describes e k) kernels job.experiments
  slots : IsGreatest (insert 0 {n | n ∈ job.experiments.map Experiment.memorySlots}) job.settings.memorySlots
  qubits : IsGreatest (insert qubits {n | n ∈ job.experiments.map Experiment.qubits}) job.settings.qubits

theorem Experiment.describes_of_ofKernel {k : Kernel} {e : Experiment} (h : Experiment.ofKernel k = .ok e) :
    e.Describes k := by
  obtain ⟨steps, hsteps, rfl⟩ := Experiment.ofKernel_eq_ok h
  exact {
    name := rfl
    steps := (mapM_eq_ok_iff.mp hsteps).imp fun _ _ => Step.ofOperation_eq_ok_iff.mp
    slots := isLeast_widthOf _
    qubits := isLeast_widthOf _ }

theorem Experiment.exists_ofKernel_iff {k : Kernel} :
    (∃ e, Experiment.ofKernel k = .ok e) ↔ ∀ op ∈ k.operations, ¬ op.Unwritable := by
  simp only [← exists_writtenAs_iff, ← exists_forall₂_iff]
  constructor
  · rintro ⟨e, he⟩
    exact ⟨_, (Experiment.describes_of_ofKernel he).steps⟩
  · rintro ⟨steps, hsteps⟩
    have hmapM : k.operations.mapM Step.ofOperation = .ok steps :=
      mapM_eq_ok_iff.mpr (hsteps.imp fun _ _ => Step.ofOperation_eq_ok_iff.mpr)
    rw [Experiment.ofKernel, hmapM]
    exact ⟨_, rfl⟩

theorem Step.memory_of_ofOperation {op : Operation} {s : Step} (h : Step.ofOperation op = .ok s) :
    s.memory = op.slot?.toList := by
  rcases Step.ofOperation_eq_ok h with ⟨slot, hslot, rfl⟩ | ⟨hmeasure, xs, -, rfl⟩
  · rw [hslot]
    rfl
  · rw [Operation.slot?, if_neg (by simp [hmeasure])]
    rfl

theorem Step.qubits_of_ofOperation {op : Operation} {s : Step} (h : Step.ofOperation op = .ok s) :
    s.qubits = op.bits := by
  rcases Step.ofOperation_eq_ok h with ⟨slot, -, rfl⟩ | ⟨-, xs, -, rfl⟩ <;> rfl

/-- What each step has of its operation, all steps have of all operations. -/
theorem Step.flatMap_of_mapM {f : Operation → List ℕ} {g : Step → List ℕ}
    (hfg : ∀ {op s}, Step.ofOperation op = .ok s → g s = f op) {ops : List Operation}
    {steps : List Step} (h : ops.mapM Step.ofOperation = .ok steps) :
    steps.flatMap g = ops.flatMap f := by
  have hmap : ops.map f = steps.map g :=
    map_eq_map_iff_forall₂.mpr ((mapM_eq_ok_iff.mp h).imp fun _ _ hs => (hfg hs).symm)
  rw [List.flatMap_def, List.flatMap_def, hmap]

theorem Experiment.memorySlots_of_ofKernel {k : Kernel} {e : Experiment}
    (h : Experiment.ofKernel k = .ok e) : e.memorySlots = widthOf k.slots := by
  obtain ⟨steps, hsteps, rfl⟩ := Experiment.ofKernel_eq_ok h
  refine congrArg widthOf ?_
  rw [Step.flatMap_of_mapM Step.memory_of_ofOperation hsteps, Kernel.slots,
    List.filterMap_eq_flatMap_toList]

theorem Experiment.qubits_of_ofKernel {k : Kernel} {e : Experiment}
    (h : Experiment.ofKernel k = .ok e) : e.qubits = widthOf (k.operations.flatMap Operation.bits) := by
  obtain ⟨steps, hsteps, rfl⟩ := Experiment.ofKernel_eq_ok h
  exact congrArg widthOf (Step.flatMap_of_mapM Step.qubits_of_ofOperation hsteps)

theorem Job.ofKernels_eq_ok {id : String} {shots qubits : ℕ} {kernels : List Kernel} {job : Job}
    (h : Job.ofKernels id shots qubits kernels = .ok job) :
    ∃ experiments, List.Forall₂ (fun k e => Experiment.ofKernel k = .ok e) kernels experiments ∧ job = {
      id
      settings := {
        shots
        memorySlots := (experiments.map Experiment.memorySlots).foldl max 0
        qubits := (experiments.map Experiment.qubits).foldl max qubits }
      experiments } := by
  obtain ⟨experiments, hexperiments, hjob⟩ := bind_eq_ok_iff.mp h
  cases hjob
  exact ⟨experiments, mapM_eq_ok_iff.mp hexperiments, rfl⟩

/-- The largest of what the experiments of kernels have is the largest of what the kernels have. -/
theorem foldl_max_experiments_le_iff {f : Kernel → ℕ} {g : Experiment → ℕ}
    (hfg : ∀ {k e}, Experiment.ofKernel k = .ok e → g e = f k) {kernels : List Kernel}
    {experiments : List Experiment}
    (h : List.Forall₂ (fun k e => Experiment.ofKernel k = .ok e) kernels experiments) (start n : ℕ) :
    (experiments.map g).foldl max start ≤ n ↔ start ≤ n ∧ ∀ k ∈ kernels, f k ≤ n := by
  have hmap : kernels.map f = experiments.map g :=
    map_eq_map_iff_forall₂.mpr (h.imp fun _ _ he => (hfg he).symm)
  refine (foldl_max_le_iff fun m => m).trans ?_
  rw [← hmap, List.forall_mem_map]

/-- A job declares the slots up to the last one that its kernels measure into. -/
theorem Job.memorySlots_le_iff {id : String} {shots qubits n : ℕ} {kernels : List Kernel} {job : Job}
    (h : Job.ofKernels id shots qubits kernels = .ok job) :
    job.settings.memorySlots ≤ n ↔ ∀ k ∈ kernels, ∀ slot ∈ k.slots, slot < n := by
  obtain ⟨experiments, hexperiments, rfl⟩ := Job.ofKernels_eq_ok h
  refine (foldl_max_experiments_le_iff Experiment.memorySlots_of_ofKernel hexperiments 0 n).trans ?_
  simp only [Nat.zero_le, true_and, widthOf_le_iff]

/-- A job runs on as many qubits as are asked for, and up to the last one that its kernels use. -/
theorem Job.qubits_le_iff {id : String} {shots qubits n : ℕ} {kernels : List Kernel} {job : Job}
    (h : Job.ofKernels id shots qubits kernels = .ok job) :
    job.settings.qubits ≤ n ↔
      qubits ≤ n ∧ ∀ k ∈ kernels, ∀ op ∈ k.operations, ∀ q ∈ op.bits, q < n := by
  obtain ⟨experiments, hexperiments, rfl⟩ := Job.ofKernels_eq_ok h
  refine (foldl_max_experiments_le_iff Experiment.qubits_of_ofKernel hexperiments qubits n).trans ?_
  simp only [widthOf_le_iff, List.forall_mem_flatMap]

theorem Job.describes_of_ofKernels {id : String} {shots qubits : ℕ} {kernels : List Kernel} {job : Job}
    (h : Job.ofKernels id shots qubits kernels = .ok job) : job.Describes id shots qubits kernels := by
  obtain ⟨experiments, hexperiments, rfl⟩ := Job.ofKernels_eq_ok h
  exact {
    form := rfl
    experiments := hexperiments.imp fun _ _ => Experiment.describes_of_ofKernel
    slots := isGreatest_foldl_max _ 0
    qubits := isGreatest_foldl_max _ qubits }

theorem Job.exists_ofKernels_iff {id : String} {shots qubits : ℕ} {kernels : List Kernel} :
    (∃ job, Job.ofKernels id shots qubits kernels = .ok job) ↔
      ∀ k ∈ kernels, ∀ op ∈ k.operations, ¬ op.Unwritable := by
  simp only [← Experiment.exists_ofKernel_iff, ← exists_forall₂_iff]
  constructor
  · rintro ⟨job, hjob⟩
    obtain ⟨experiments, hexperiments, -⟩ := Job.ofKernels_eq_ok hjob
    exact ⟨experiments, hexperiments⟩
  · rintro ⟨experiments, hexperiments⟩
    rw [Job.ofKernels, mapM_eq_ok_iff.mpr hexperiments]
    exact ⟨_, rfl⟩

/-- A kernel that can be written uses no slot exactly if it measures nothing. -/
theorem slots_lt_zero_iff {k : Kernel} (h : ∀ op ∈ k.operations, ¬ op.Unwritable) :
    (∀ slot ∈ k.slots, slot < 0) ↔ ∀ op ∈ k.operations, op.isMeasure = false := by
  constructor
  · intro hnone op hop
    obtain ⟨s, hs⟩ := exists_writtenAs_iff.mpr (h op hop)
    cases hs with
    | @measurement n hname hfirst hnatural =>
      have hslot : op.slot? = some n.toInt.toNat := by
        simp [Operation.slot?, Operation.isMeasure, hname, hfirst, hnatural]
      exact absurd (hnone _ (List.mem_filterMap.mpr ⟨op, hop, hslot⟩)) (Nat.not_lt_zero _)
    | gate hname => simpa [Operation.isMeasure] using hname
  · intro hnone slot hslot
    obtain ⟨op, hop, hslot⟩ := List.mem_filterMap.mp hslot
    rw [Operation.slot?, hnone op hop] at hslot
    cases hslot

/-- The request for a list of kernels. A walk over the enabled copy of a kernel meets the operations
that simulation and dependencies are about, and writes down the experiment that is made of them.
There is a request unless one of these operations cannot be written, and it then describes the
kernels. Its numbers stay within a machine word as long as the next number after each qubit does. -/
theorem request_describes_kernels (id : String) (shots qubits : ℕ) (kernels : List Kernel) :
    (∀ k : Kernel, (Traversal.ofKernel k.view).rest.filterMap Instruction.operation? = k.operations ∧
      (DependencyGraph.ofKernel k).operations = k.operations ∧
      (∀ size limit p, Plan.ofKernel k size limit = .ok p → p.operations = k.operations) ∧
      Experiment.ofWalk k = Experiment.ofKernel k) ∧
    ((∃ fault, Job.ofKernels id shots qubits kernels = .error fault) ↔
      ∃ k ∈ kernels, ∃ op ∈ k.operations, op.Unwritable) ∧
    ∀ job, Job.ofKernels id shots qubits kernels = .ok job →
      job.Describes id shots qubits kernels ∧
      (job.settings.memorySlots = 0 ↔ ∀ k ∈ kernels, ∀ op ∈ k.operations, op.isMeasure = false) ∧
      ((∀ k ∈ kernels, ∀ op ∈ k.operations, ∀ q ∈ op.bits, q < Json.wordLimit) → qubits ≤ Json.wordLimit →
        job.settings.memorySlots ≤ Json.wordLimit ∧ job.settings.qubits ≤ Json.wordLimit) := by
  refine ⟨fun k => ⟨?_, rfl, fun _ _ _ => Plan.operations_of_ofKernel, Experiment.ofWalk_eq k⟩, ?_, ?_⟩
  · rw [Traversal.rest_ofKernel, k.filterMap_preorder_view]
  · rw [exists_eq_error_iff, Job.exists_ofKernels_iff]
    simp only [not_forall, not_not, exists_prop]
  · intro job hjob
    have hwritable := Job.exists_ofKernels_iff.mp ⟨job, hjob⟩
    refine ⟨Job.describes_of_ofKernels hjob, ?_, fun hbits hqubits => ⟨?_, ?_⟩⟩
    · rw [← Nat.le_zero, Job.memorySlots_le_iff hjob]
      exact forall₂_congr fun k hk => slots_lt_zero_iff (hwritable k hk)
    · refine (Job.memorySlots_le_iff hjob).mpr fun k hk slot hslot => ?_
      obtain ⟨op, -, hop⟩ := List.mem_filterMap.mp hslot
      obtain ⟨-, n, -, -, rfl⟩ := slot?_eq_some hop
      have hlimit := n.toInt_lt
      unfold Json.wordLimit
      omega
    · exact (Job.qubits_le_iff hjob).mpr ⟨hqubits, hbits⟩

/-- A kernel with a block, a disabled operation that cannot be written, a disabled block and a
measurement. -/
def measuredKernel : Kernel :=
  ⟨{ name := "measured" }, [
    .leaf { name := "H", bits := [0] },
    .block { name := "inner" } [
      .leaf { name := "CRZ", bits := [0, 4], parameters := [.int 2] },
      .leaf { name := "Rx", bits := [1], parameters := [.text "theta"], enabled := false }],
    .block { name := "off", enabled := false } [.leaf { name := "X", bits := [9] }],
    .leaf (.measure 4 2)]⟩

def unmeasuredKernel : Kernel := ⟨{ name := "unmeasured" }, [.leaf { name := "X", bits := [1] }]⟩

theorem request_describes_kernels_measuredPair :
    ∃ job, Job.ofKernels "pair" 100 3 [measuredKernel, unmeasuredKernel] = .ok job ∧
      job.Describes "pair" 100 3 [measuredKernel, unmeasuredKernel] ∧
      job.settings.memorySlots ≤ Json.wordLimit ∧ job.settings.qubits ≤ Json.wordLimit := by
  obtain ⟨-, -, hdescribes⟩ := request_describes_kernels "pair" 100 3 [measuredKernel, unmeasuredKernel]
  obtain ⟨hjob, -, hfits⟩ := hdescribes _ rfl
  exact ⟨_, rfl, hjob, hfits (by decide) (by decide)⟩

end Wire

end QuantumKernels
