import QuantumKernels.Proofs.Relabel

/-!
# Relabelling instruction by instruction

An instruction on its own is relabelled by the same map, but there a block that is an annealing
problem is refused. Inside a gate kernel it is not, at any depth.
-/
namespace QuantumKernels

namespace Instruction

/-- A block that is an annealing problem. -/
def isAnnealing : Instruction → Bool
  | leaf _ => false
  | block h _ => h.kind == .anneal

theorem preorder_relabel (map : List ℕ) (i : Instruction) :
    (i.relabel map).preorder = i.preorder.map (relabel map) := by
  induction i using tree_induction with
  | leaf op => rfl
  | block h body ih =>
    rw [preorder, preorderOf_eq, List.map_cons, relabel, preorder, preorderOf_eq, relabelOf_eq, List.flatMap_map,
      List.map_flatMap]
    exact congrArg _ (List.flatMap_congr ih)

end Instruction

namespace Kernel

theorem mapBits_eq_ok_iff {map : List ℕ} {k k' : Kernel} : k.mapBits map = .ok k' ↔
    k.header.kind = .gate ∧ k.width ≤ map.length ∧
      k' = ⟨k.header.relabel map, k.body.map (Instruction.relabel map)⟩ := by
  rw [width_le_iff, mapBits, Instruction.relabelOf_eq]
  cases k.header.kind with
  | anneal => simp
  | gate =>
    cases Instruction.unmapped?.unmappedOf map k.body with
    | some bit => simp
    | none => simp [eq_comm]

theorem width_le_iff_forall {map : List ℕ} {k : Kernel} :
    k.width ≤ map.length ↔ ∀ i ∈ k.body, i.unmapped? map = none := by
  rw [width_le_iff, Instruction.unmappedOf_eq, List.findSome?_eq_none_iff]

theorem preorder_relabel (map : List ℕ) (k : Kernel) :
    (Kernel.mk (k.header.relabel map) (k.body.map (Instruction.relabel map))).preorder =
      k.preorder.map (Instruction.relabel map) := by
  rw [preorder, preorder, Instruction.preorderOf_eq, Instruction.preorderOf_eq, List.flatMap_map, List.map_flatMap]
  exact List.flatMap_congr fun i _ => i.preorder_relabel map

end Kernel

/-- On its own an instruction is relabelled if the map covers it and it is no annealing problem. -/
theorem Instruction.mapBits_eq_ok_iff {map : List ℕ} {i i' : Instruction} : i.mapBits map = .ok i' ↔
    i.unmapped? map = none ∧ i.isAnnealing = false ∧ i' = i.relabel map := by
  cases i with
  | leaf op =>
    rw [mapBits, unmapped?, relabel, isAnnealing]
    cases op.unmapped? map with
    | some bit => simp
    | none => simp [eq_comm]
  | block h body =>
    have hinside : (block h body).mapBits map = .ok i' ↔
        ∃ k, (Kernel.mk h body).mapBits map = .ok k ∧ ofKernel k = i' := by
      rw [mapBits]
      cases (Kernel.mk h body).mapBits map <;> simp [Except.map]
    have hcovered : (Kernel.mk h body).width ≤ map.length ↔ (block h body).unmapped? map = none :=
      Kernel.width_le_iff
    have hgate : h.kind = .gate ↔ (block h body).isAnnealing = false := by
      rw [isAnnealing]
      cases h.kind <;> decide
    simp only [hinside, Kernel.mapBits_eq_ok_iff, hcovered, hgate, relabel, relabelOf_eq]
    constructor
    · rintro ⟨k, ⟨hkind, hmapped, rfl⟩, rfl⟩
      exact ⟨hmapped, hkind, rfl⟩
    · rintro ⟨hmapped, hkind, rfl⟩
      exact ⟨_, ⟨hkind, hmapped, rfl⟩, rfl⟩

theorem Instruction.exists_mapBits_iff {map : List ℕ} {i : Instruction} :
    (∃ i', i.mapBits map = .ok i') ↔ i.unmapped? map = none ∧ i.isAnnealing = false := by
  simp [mapBits_eq_ok_iff]

/-- Each instruction of a kernel can be relabelled on its own if the map covers the kernel and none
of them is an annealing problem. -/
theorem Kernel.forall_exists_mapBits_iff {map : List ℕ} {k : Kernel} :
    (∀ i ∈ k.body, ∃ i', i.mapBits map = .ok i') ↔
      k.width ≤ map.length ∧ ∀ i ∈ k.body, i.isAnnealing = false := by
  simp only [Instruction.exists_mapBits_iff, width_le_iff_forall, forall_and]

theorem Kernel.forall₂_mapBits_iff {map : List ℕ} {k : Kernel} (hcovered : k.width ≤ map.length) :
    List.Forall₂ (fun i i' => i.mapBits map = .ok i') k.body (k.body.map (Instruction.relabel map)) ↔
      ∀ i ∈ k.body, i.isAnnealing = false := by
  rw [width_le_iff_forall] at hcovered
  rw [List.forall₂_map_right_iff, List.forall₂_same]
  refine forall₂_congr fun i hi => ?_
  rw [Instruction.mapBits_eq_ok_iff]
  exact ⟨fun h => h.2.1, fun h => ⟨hcovered i hi, h, rfl⟩⟩

/-- Relabelling a gate kernel comes to the same as relabelling each of its instructions on its own,
with the same success and the same instructions, exactly if no block directly in it is an annealing
problem or the map leaves out a bit anyway. For there such a block is refused, and in the kernel it
is not: whatever stands in the kernel, at any depth, annealing problems included, is relabelled. -/
theorem mapBits_copies_iff (k : Kernel) (hk : k.header.kind = .gate) (map : List ℕ) :
    ((∀ i ∈ k.body, ∃ i', i.mapBits map = .ok i') ↔
      k.width ≤ map.length ∧ ∀ i ∈ k.body, i.isAnnealing = false) ∧
    (((∃ k', k.mapBits map = .ok k') ↔ ∀ i ∈ k.body, ∃ i', i.mapBits map = .ok i') ↔
      (k.width ≤ map.length → ∀ i ∈ k.body, i.isAnnealing = false)) ∧
    ∀ k', k.mapBits map = .ok k' →
      (List.Forall₂ (fun i i' => i.mapBits map = .ok i') k.body k'.body ↔
        ∀ i ∈ k.body, i.isAnnealing = false) ∧
      k'.preorder = k.preorder.map (Instruction.relabel map) := by
  have hwhole : (∃ k', k.mapBits map = .ok k') ↔ k.width ≤ map.length := by
    simp [Kernel.mapBits_eq_ok_iff, hk]
  refine ⟨Kernel.forall_exists_mapBits_iff, ?_, fun k' hmap => ?_⟩
  · rw [hwhole, Kernel.forall_exists_mapBits_iff]
    tauto
  · obtain ⟨-, hcovered, rfl⟩ := Kernel.mapBits_eq_ok_iff.mp hmap
    exact ⟨Kernel.forall₂_mapBits_iff hcovered, Kernel.preorder_relabel map k⟩

/-- A gate kernel with an annealing problem in it, which stands for one coupler. -/
def mixedKernel : Kernel :=
  ⟨{ name := "g" }, [.block { name := "a", kind := .anneal } [.leaf { name := "dw-qmi", bits := [0, 1] }]]⟩

theorem mapBits_copies_iff_mixedKernel :
    mixedKernel.header.kind = .gate ∧
    (∃ k', mixedKernel.mapBits [1, 0] = .ok k' ∧
      k'.preorder = mixedKernel.preorder.map (Instruction.relabel [1, 0])) ∧
    ¬ ∀ i ∈ mixedKernel.body, ∃ i', i.mapBits [1, 0] = .ok i' := by
  obtain ⟨hcopies, -, hmapped⟩ := mapBits_copies_iff mixedKernel rfl [1, 0]
  refine ⟨rfl, ⟨_, rfl, (hmapped _ rfl).2⟩, ?_⟩
  rw [hcopies]
  decide

end QuantumKernels
