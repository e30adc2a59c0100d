import QuantumKernels.Kernel.Relabel
import QuantumKernels.Proofs.Tree

/-!
# Relabelling the bits of a kernel

The bits that a map leaves out are looked for in the leaves, in the order of a walk. A map as long
as the kernel is wide leaves out none, and relabels each leaf and each block.
-/
namespace QuantumKernels

/-- The operation on the new bits, which a map gives at the places of the old ones. -/
structure Operation.RelabelledBy (map : List ℕ) (op op' : Operation) : Prop where
  bits : op'.bits.map some = op.bits.map fun b => map[b]?
  rest : op' = { op with bits := op'.bits }

theorem Operation.relabelledBy_relabel {map : List ℕ} {op : Operation}
    (h : ∀ b ∈ op.bits, b < map.length) : op.RelabelledBy map (op.relabel map) where
  bits := by
    rw [relabel, List.map_map]
    refine List.map_congr_left fun b hb => ?_
    simp [h b hb]
  rest := rfl

namespace Instruction

theorem relabelOf_eq (map : List ℕ) (body : List Instruction) :
    relabel.relabelOf map body = body.map (relabel map) := by
  induction body with
  | nil => rfl
  | cons i rest ih => simp [relabel.relabelOf, ih]

theorem unmappedOf_eq (map : List ℕ) (body : List Instruction) :
    unmapped?.unmappedOf map body = body.findSome? (unmapped? map) := by
  induction body with
  | nil => rfl
  | cons i rest ih =>
    rw [unmapped?.unmappedOf, ih, List.findSome?_cons]
    cases i.unmapped? map <;> rfl

/-- The first bit left out by a map, in the order in which a walk meets the bits. -/
theorem unmapped?_eq (map : List ℕ) (i : Instruction) :
    i.unmapped? map = (i.leaves.flatMap Operation.bits).find? fun b => map.length ≤ b := by
  induction i using tree_induction with
  | leaf op => simp [unmapped?, leaves, Operation.unmapped?]
  | block h body ih =>
    -- the search in a block goes on only while the instructions before have no such bit
    rw [unmapped?, unmappedOf_eq, leaves, leavesOf_eq]
    induction body with
    | nil => rfl
    | cons i rest ihr =>
      rw [List.findSome?_cons, ih i (by simp), ihr fun j hj => ih j (by simp [hj])]
      simp only [List.flatMap_cons, List.flatMap_append, List.find?_append]
      cases (i.leaves.flatMap Operation.bits).find? fun b => map.length ≤ b <;> rfl

/-- A map that covers all bits replaces each of them and leaves all else as it is. -/
theorem alike_relabel {map : List ℕ} {i : Instruction}
    (h : ∀ op ∈ i.leaves, ∀ b ∈ op.bits, b < map.length) :
    i.Alike (fun h => { h with bitMap := map }) (Operation.RelabelledBy map) (i.relabel map) := by
  induction i using tree_induction with
  | leaf op => exact .leaf (Operation.relabelledBy_relabel (h op (by simp [leaves])))
  | block hd body ih =>
    rw [relabel, relabelOf_eq]
    refine .block (List.forall₂_map_right_iff.mpr (List.forall₂_same.mpr fun i hi => ih i hi ?_))
    intro op hop
    exact h op (mem_leaves_block.mpr ⟨i, hi, hop⟩)

end Instruction

namespace Kernel

theorem unmapped?_eq (map : List ℕ) (k : Kernel) : Instruction.unmapped?.unmappedOf map k.body =
    ((k.preorder.filterMap Instruction.operation?).flatMap Operation.bits).find?
      fun b => map.length ≤ b := by
  rw [← k.leaves_eq_filterMap]
  exact (Instruction.ofKernel k).unmapped?_eq map

/-- A map covers the bits of a kernel exactly if it is at least as long as the kernel is wide. -/
theorem width_le_iff {map : List ℕ} {k : Kernel} :
    k.width ≤ map.length ↔ Instruction.unmapped?.unmappedOf map k.body = none := by
  rw [unmapped?_eq, List.find?_eq_none, ← k.leaves_eq_filterMap]
  simp only [decide_eq_true_eq, not_le]
  exact ⟨fun h b hb => (lt_widthOf hb).trans_le h, widthOf_le⟩

theorem alike_mapBits {map : List ℕ} {k k' : Kernel} (h : k.mapBits map = .ok k') :
    (Instruction.ofKernel k).Alike (fun h => { h with bitMap := map })
      (Operation.RelabelledBy map) (Instruction.ofKernel k') := by
  rw [mapBits] at h
  split at h
  · cases h
  · split at h
    · cases h
    · rename_i hcovered
      cases h
      refine Instruction.alike_relabel fun op hop b hb => ?_
      have hwidth := width_le_iff.mpr hcovered
      exact (lt_widthOf (List.mem_flatMap.mpr ⟨op, hop, hb⟩)).trans_le hwidth

end Kernel

/-- A gate kernel is relabelled exactly if the map is as long as the kernel is wide. Then each bit
has become the one the map gives for it, in every operation at any depth, every block notes the
map, and nothing else is changed; otherwise there is no new kernel, and the complaint is about the
first bit that a walk meets and the map leaves out. -/
theorem mapBits_relabels_all_or_none (k : Kernel) (hk : k.header.kind = .gate) (map : List ℕ) :
    k.width = k.bits.getLast?.elim 0 (· + 1) ∧
    ((∃ k', k.mapBits map = .ok k') ↔ k.width ≤ map.length) ∧
    match k.mapBits map with
    | .ok k' => (Instruction.ofKernel k).Alike (fun h => { h with bitMap := map })
        (Operation.RelabelledBy map) (Instruction.ofKernel k')
    | .error e => ∃ bit, ((k.preorder.filterMap Instruction.operation?).flatMap Operation.bits).find?
        (fun b => map.length ≤ b) = some bit ∧ e = .unmappedBit bit map.length := by
  refine ⟨widthOf_eq_getLast? _, ?_, ?_⟩
  · rw [Kernel.width_le_iff, Kernel.mapBits, hk]
    cases Instruction.unmapped?.unmappedOf map k.body <;> simp
  · cases hmap : k.mapBits map with
    | ok k' => exact Kernel.alike_mapBits hmap
    | error e =>
      rw [Kernel.mapBits, hk, Kernel.unmapped?_eq] at hmap
      dsimp only at hmap ⊢
      split at hmap
      · rename_i bit hbit
        cases hmap
        exact ⟨bit, hbit, rfl⟩
      · cases hmap

/-- A block that is disabled uses the highest bit. -/
def deepKernel : Kernel :=
  ⟨{ name := "deep" }, [
    .leaf { name := "H", bits := [1] },
    .block { name := "inner", enabled := false } [.leaf { name := "CNOT", bits := [3, 0], enabled := false }]]⟩

theorem mapBits_relabels_all_or_none_deepKernel :
    deepKernel.header.kind = .gate ∧ (∃ k', deepKernel.mapBits [4, 6, 5, 7] = .ok k') ∧
      deepKernel.mapBits [4, 6, 5] = .error (.unmappedBit 3 3) := by
  have hwidth : deepKernel.width = 4 := by decide
  refine ⟨rfl, ?_, ?_⟩
  · obtain ⟨-, hok, -⟩ := mapBits_relabels_all_or_none deepKernel rfl [4, 6, 5, 7]
    exact hok.mpr (by rw [hwidth]; decide)
  · obtain ⟨-, hok, hresult⟩ := mapBits_relabels_all_or_none deepKernel rfl [4, 6, 5]
    have hfails : ¬ ∃ k', deepKernel.mapBits [4, 6, 5] = .ok k' := by
      rw [hok, hwidth]
      decide
    cases hmap : deepKernel.mapBits [4, 6, 5] with
    | ok k' => exact absurd ⟨k', hmap⟩ hfails
    | error e =>
      rw [hmap] at hresult
      obtain ⟨bit, hbit, rfl⟩ := hresult
      cases hbit
      rfl

end QuantumKernels
