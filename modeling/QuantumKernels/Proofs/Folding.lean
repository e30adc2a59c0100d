import QuantumKernels.Proofs.Binding
import QuantumKernels.Proofs.FoldInPlace
import QuantumKernels.Proofs.NormalForm

/-!
# Folding leaves the ideal circuit as it is

A sweep that meets an odd number of copies of a gate ends as if it had
met the gate once: either the first copy stays and the others go in pairs, or it goes together with
an earlier gate, and then the others go in pairs too.
-/
namespace QuantumKernels

theorem Operation.Undoes.symm {a b : Operation} (h : a.Undoes b) : b.Undoes a where
  name := h.name.symm
  selfInverse := h.name ▸ h.selfInverse
  parameters := h.parameters.symm
  bits := h.bits.imp Eq.symm fun ⟨hsymmetric, hperm⟩ => ⟨h.name ▸ hsymmetric, hperm.symm⟩

theorem Operation.Undoes.trans {a b c : Operation} (h : a.Undoes b) (h' : b.Undoes c) : a.Undoes c where
  name := h.name.trans h'.name
  selfInverse := h.selfInverse
  parameters := ⟨h.parameters.1, h'.parameters.2⟩
  bits := by
    rcases h.bits with heq | ⟨hsymmetric, hperm⟩ <;> rcases h'.bits with heq' | ⟨hsymmetric', hperm'⟩
    · exact .inl (heq.trans heq')
    · exact .inr ⟨h.name ▸ hsymmetric', heq ▸ hperm'⟩
    · exact .inr ⟨hsymmetric, heq' ▸ hperm⟩
    · exact .inr ⟨hsymmetric, hperm.trans hperm'⟩

/-- A gate that undoes itself. -/
theorem Operation.undoes_self {op : Operation} (h : op.isSelfInverse) : op.Undoes op :=
  undoes_of_cancels (by simp [Operation.cancels, h, Operation.sameBits, List.isPerm_iff]) h

/-- The gate that comes after its own copy finds that copy. -/
theorem withoutPartner_self {op : Operation} (hself : op.isSelfInverse) (hbits : op.bits ≠ [])
    (kept : List Instruction) : withoutPartner op (.leaf op :: kept) = some kept := by
  obtain ⟨q, hq⟩ := List.exists_mem_of_ne_nil _ hbits
  have htouch : (Instruction.leaf op).touches op.bits = true := Instruction.touches_iff.mpr ⟨q, hq, hq⟩
  rw [withoutPartner, if_pos htouch]
  exact if_pos (Operation.undoes_self hself).cancels.1

/-- When a gate leaves together with its partner, its next copy finds none: the partner itself had
none among those before it. -/
theorem Unpartnered.withoutPartner_again {op : Operation} {kept kept' : List Instruction}
    (hk : Unpartnered kept) (hself : op.isSelfInverse)
    (h : QuantumKernels.withoutPartner op kept = some kept') :
    QuantumKernels.withoutPartner op kept' = none := by
  obtain ⟨later, p, earlier, rfl, rfl, hcancels, hfree⟩ := withoutPartner_eq_some h
  have hundoes := undoes_of_cancels hcancels hself
  have hp : p.isSelfInverse := hundoes.symm.cancels.2
  have hearlier := (withoutPartner_eq_none_iff hp).mp (hk.of_append.1 hp)
  have hnone : QuantumKernels.withoutPartner op earlier = none :=
    (withoutPartner_eq_none_iff hself).mpr fun later' x earlier' hsplit hx =>
      hearlier later' x earlier' hsplit (hx.trans hundoes.symm)
  rw [withoutPartner_of_free hfree, hnone, Option.map_none]

/-- If folding repeats the gate, its name is spelled as that of a gate that undoes itself, and it has
no parameters. -/
def Operation.FoldsPlainly (op : Operation) : Prop :=
  op.isFoldable → op.name ∈ ["CNOT", "CZ", "Swap", "CY"] ∧ op.parameters = []

theorem Operation.FoldsPlainly.gate {op : Operation} (hplain : op.FoldsPlainly) (hop : op.isFoldable) :
    op.enabled ∧ op.isSelfInverse ∧ op.bits ≠ [] := by
  obtain ⟨hname, hparameters⟩ := hplain hop
  simp only [isFoldable, Bool.and_eq_true, beq_iff_eq] at hop
  refine ⟨hop.1.1, ?_, List.length_pos_iff.mp (by omega)⟩
  simp only [List.mem_cons, List.not_mem_nil, or_false] at hname
  rcases hname with hname | hname | hname | hname <;> simp [isSelfInverse, hname, hparameters]

namespace Instruction

theorem sweepAll_append (kept a b : List Instruction) : (sweepInto.sweepAll kept (a ++ b)).1 =
    (sweepInto.sweepAll (sweepInto.sweepAll kept a).1 b).1 := by
  induction a generalizing kept with
  | nil => rfl
  | cons i rest ih => exact ih _

/-- What is kept after a gate that undoes itself has been met. -/
theorem sweepInto_gate {op : Operation} (henabled : op.enabled) (hself : op.isSelfInverse)
    (kept : List Instruction) :
    (sweepInto kept (leaf op)).1 = (withoutPartner op kept).getD (leaf op :: kept) := by
  cases h : withoutPartner op kept <;> simp [sweepInto, henabled, hself, h]

/-- Three copies of a gate do what one does. -/
theorem sweepInto_thrice {op : Operation} (henabled : op.enabled) (hself : op.isSelfInverse)
    (hbits : op.bits ≠ []) {kept : List Instruction} (hk : Clean kept) :
    (sweepInto (sweepInto (sweepInto kept (leaf op)).1 (leaf op)).1 (leaf op)).1 =
      (sweepInto kept (leaf op)).1 := by
  simp only [sweepInto_gate henabled hself]
  cases h : withoutPartner op kept with
  | none => simp [withoutPartner_self hself hbits, h]
  | some kept' =>
    have hagain := hk.unpartnered.withoutPartner_again hself h
    simp [withoutPartner_self hself hbits, hagain]

theorem sweepAll_odd_copies {op : Operation} (henabled : op.enabled) (hself : op.isSelfInverse)
    (hbits : op.bits ≠ []) (m : ℕ) {kept : List Instruction} (hk : Clean kept) :
    (sweepInto.sweepAll kept (List.replicate (2 * m + 1) (leaf op))).1 = (sweepInto kept (leaf op)).1 := by
  induction m generalizing kept with
  | zero => rfl
  | succ m ih =>
    have htwo := clean_sweepInto (leaf op) _ (clean_sweepInto (leaf op) kept hk)
    exact (ih htwo).trans (sweepInto_thrice henabled hself hbits hk)

theorem sweepAll_foldOf {scale : ℕ} {body : List Instruction}
    (step : ∀ i ∈ body, ∀ kept, Clean kept →
      (sweepInto.sweepAll kept (i.fold scale)).1 = (sweepInto kept i).1)
    {kept : List Instruction} (hk : Clean kept) :
    (sweepInto.sweepAll kept (fold.foldOf scale body)).1 = (sweepInto.sweepAll kept body).1 := by
  induction body generalizing kept with
  | nil => rfl
  | cons i rest ih =>
    rw [fold_foldOf_cons, sweepAll_append, step i (by simp) kept hk]
    exact ih (fun j hj => step j (by simp [hj])) (clean_sweepInto i kept hk)

/-- The copies that folding makes of an instruction leave behind what the instruction does. -/
theorem sweepAll_fold {scale : ℕ} (hodd : Odd scale) {i : Instruction}
    (hplain : ∀ op ∈ i.leaves, op.FoldsPlainly) {kept : List Instruction} (hk : Clean kept) :
    (sweepInto.sweepAll kept (i.fold scale)).1 = (sweepInto kept i).1 := by
  induction i using tree_induction generalizing kept with
  | leaf op =>
    rw [fold]
    split
    · rename_i hop
      obtain ⟨henabled, hself, hbits⟩ := (hplain op (by simp [leaves])).gate hop
      obtain ⟨m, rfl⟩ := hodd
      rw [max_eq_left (Nat.le_add_left 1 _)]
      exact sweepAll_odd_copies henabled hself hbits m hk
    · rfl
  | block h body ih =>
    have hinside : (sweepInto.sweepAll [] (fold.foldOf scale body)).1 = (sweepInto.sweepAll [] body).1 :=
      sweepAll_foldOf (fun i hi _ => ih i hi fun op hop =>
        hplain op (mem_leaves_block.mpr ⟨i, hi, hop⟩)) clean_nil
    rw [fold]
    by_cases henabled : h.enabled
    · simp [sweepInto.sweepAll, sweepInto, henabled, hinside]
    · simp [sweepInto.sweepAll, sweepInto, henabled]

end Instruction

theorem Kernel.sweep_fold {scale : ℕ} (hodd : Odd scale) {k : Kernel}
    (hplain : ∀ op ∈ k.leaves, op.FoldsPlainly) : (k.fold scale).sweep.1 = k.sweep.1 := by
  have hstep : ∀ i ∈ k.body, ∀ kept, Instruction.Clean kept →
      (Instruction.sweepInto.sweepAll kept (i.fold scale)).1 = (Instruction.sweepInto kept i).1 :=
    fun i hi _ => Instruction.sweepAll_fold hodd fun op hop =>
      hplain op (mem_leaves.mpr ⟨i, hi, hop⟩)
  have hkept := Instruction.sweepAll_foldOf hstep Instruction.clean_nil
  exact congrArg (fun kept => k.header.assemble kept.reverse) hkept

/-- On a kernel made by edits folding never fails. If the gates it repeats are spelled as those that
undo themselves, and have no parameters, then the optimizer takes back what folding with an odd
scale does. -/
theorem optimize_undoes_folding (k : Kernel) (hk : k.Built) :
    (∀ scale, k.foldInPlace scale = .ok (k.fold scale)) ∧
    ((∀ op ∈ k.leaves, op.FoldsPlainly) → ∀ scale, Odd scale → ∀ tries,
      (k.fold scale).optimize (tries + 1) = k.optimize (tries + 1)) := by
  refine ⟨Kernel.Scoped.foldInPlace hk.scoped, fun hplain scale hodd tries => ?_⟩
  rw [Kernel.optimize_eq_sweep, Kernel.optimize_eq_sweep]
  exact Kernel.sweep_fold hodd hplain

def entangledBlock : Kernel :=
  (Kernel.named "inner").push (.leaf { name := "CY", bits := [1, 2] })

/-- A gate that meets its partner with the bits the other way round, one that stays, and a block;
the last gate is disabled. -/
def entangledKernel : Kernel :=
  (((((Kernel.named "outer").push (.leaf { name := "CZ", bits := [0, 1] })).push
    (.leaf { name := "CZ", bits := [1, 0] })).push (.leaf { name := "CNOT", bits := [0, 1] })).push
    (.ofKernel entangledBlock)).push (.leaf { name := "Swap", bits := [0, 2], enabled := false })

example : (entangledKernel.fold 3).leaves.map Operation.name =
    ["CZ", "CZ", "CZ", "CZ", "CZ", "CZ", "CNOT", "CNOT", "CNOT", "CY", "CY", "CY", "Swap"] := by cbv

theorem optimize_undoes_folding_entangledKernel :
    entangledKernel.Built ∧ (∃ k', entangledKernel.foldInPlace 3 = .ok k' ∧ k'.size = 11) ∧
      (entangledKernel.fold 3).optimize 3 = entangledKernel.optimize 3 := by
  have hinner : entangledBlock.Built := .push (.named _ _) (.operation _)
  have hbuilt : entangledKernel.Built :=
    .push (.push (.push (.push (.push (.named _ _) (.operation _)) (.operation _)) (.operation _)) hinner)
      (.operation _)
  have hspelled : ∀ op ∈ entangledKernel.leaves,
      op.name ∈ ["CNOT", "CZ", "Swap", "CY"] ∧ op.parameters = [] := by decide
  obtain ⟨hok, hsame⟩ := optimize_undoes_folding entangledKernel hbuilt
  exact ⟨hbuilt, ⟨_, hok 3, by cbv⟩, hsame (fun op hop _ => hspelled op hop) 3 (by decide) 2⟩

end QuantumKernels
