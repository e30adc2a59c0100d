import QuantumKernels.Proofs.Folding

/-!
# Folding repeats the gates that take part

Folding leaves the tree as it is, with its headers and its disabled operations. Where an enabled gate of one of
a few kinds on two bits stands, as many copies of it stand afterwards, one after the other. So the operations that
take part are those from before, each gate of these kinds as often as the scale says.
-/
namespace QuantumKernels

namespace Operation

/-- The gates on two bits that are repeated, whatever the case of the letters in their names. -/
def IsPairGate (op : Operation) : Prop :=
  op.bits.length = 2 ∧ Text.lowerAscii op.name ∈ ["cnot", "cz", "swap", "cy"]

instance : DecidablePred IsPairGate := fun _ => inferInstanceAs (Decidable (_ ∧ _))

theorem isFoldable_iff (op : Operation) : op.isFoldable = true ↔ op.enabled = true ∧ op.IsPairGate := by
  have hlower : ["CNOT", "CZ", "Swap", "CY"].map Text.lowerAscii = ["cnot", "cz", "swap", "cy"] := by
    simp [Text.lowerAscii, String.map_eq_internal]
  rw [IsPairGate, ← hlower, isFoldable, Bool.and_eq_true, Bool.and_eq_true, beq_iff_eq, List.any_eq_true,
    List.mem_map, and_assoc]
  simp only [Text.sameIgnoringCase, beq_iff_eq]

/-- What stands in the place of an operation that takes part. -/
def copies (scale : ℕ) (op : Operation) : List Operation :=
  if op.IsPairGate then List.replicate scale op else [op]

end Operation

namespace Instruction

/-- What stands in the place of an instruction whose enabled gates on two bits are repeated. -/
inductive Repeats (scale : ℕ) : Instruction → List Instruction → Prop
  | gate {op : Operation} (enabled : op.enabled = true) (pair : op.IsPairGate) :
      Repeats scale (leaf op) (List.replicate scale (leaf op))
  | kept {op : Operation} (other : op.enabled = true → ¬ op.IsPairGate) : Repeats scale (leaf op) [leaf op]
  | block {h : Header} {body : List Instruction} {parts : List (List Instruction)}
      (inside : List.Forall₂ (Repeats scale) body parts) : Repeats scale (block h body) [block h parts.flatten]

theorem foldOf_eq (scale : ℕ) (body : List Instruction) : fold.foldOf scale body = body.flatMap (fold scale) := by
  induction body with
  | nil => rfl
  | cons i rest ih => rw [fold_foldOf_cons, ih, List.flatMap_cons]

theorem repeats_fold {scale : ℕ} (hscale : 1 ≤ scale) (i : Instruction) : i.Repeats scale (i.fold scale) := by
  induction i using tree_induction with
  | leaf op =>
    rw [fold]
    split
    · rename_i hop
      obtain ⟨henabled, hpair⟩ := op.isFoldable_iff.mp hop
      rw [max_eq_left hscale]
      exact .gate henabled hpair
    · rename_i hop
      exact .kept fun henabled hpair => hop (op.isFoldable_iff.mpr ⟨henabled, hpair⟩)
  | block h body ih =>
    rw [fold, foldOf_eq, List.flatMap_def]
    exact .block (List.forall₂_map_right_iff.mpr (List.forall₂_same.mpr ih))

/-- What is collected from the parts of a body, if it is known for the part in the place of each instruction. -/
theorem flatMap_flatten_of_repeats {α : Type} {scale : ℕ} {body : List Instruction} {parts : List (List Instruction)}
    (hparts : List.Forall₂ (Repeats scale) body parts) {f g : Instruction → List α}
    (h : ∀ i ∈ body, ∀ part, i.Repeats scale part → part.flatMap f = g i) :
    parts.flatten.flatMap f = body.flatMap g := by
  induction hparts with
  | nil => rfl
  | cons hpart _ ih =>
    obtain ⟨hfirst, hrest⟩ := List.forall_mem_cons.mp h
    rw [List.flatten_cons, List.flatMap_append, List.flatMap_cons, hfirst _ hpart, ih hrest]

section

variable {scale : ℕ} {i : Instruction} {parts : List Instruction}

theorem Repeats.operations (h : i.Repeats scale parts) :
    parts.flatMap operations = i.operations.flatMap (Operation.copies scale) := by
  induction i using tree_induction generalizing parts with
  | leaf op =>
    cases h with
    | gate henabled hpair => simp [List.flatMap_replicate, Instruction.operations, henabled, Operation.copies, hpair]
    | kept hother =>
      rw [List.flatMap_singleton, Instruction.operations]
      split
      · rename_i henabled
        simp [Operation.copies, hother henabled]
      · rfl
  | block hd body ih =>
    obtain _ | _ | ⟨hinside⟩ := h
    rw [List.flatMap_singleton, Instruction.operations, Instruction.operations]
    split
    · rw [operationsOf_eq, operationsOf_eq, List.flatMap_assoc]
      exact flatMap_flatten_of_repeats hinside fun i hi _ hpart => ih i hi hpart
    · rfl

theorem Repeats.disabled (h : i.Repeats scale parts) :
    (parts.flatMap leaves).filter (!·.enabled) = i.leaves.filter (!·.enabled) := by
  rw [List.filter_flatMap]
  induction i using tree_induction generalizing parts with
  | leaf op =>
    cases h with
    | gate henabled hpair => simp [List.flatMap_replicate, Instruction.leaves, henabled]
    | kept hother => rw [List.flatMap_singleton]
  | block hd body ih =>
    obtain _ | _ | ⟨hinside⟩ := h
    rw [List.flatMap_singleton, Instruction.leaves, Instruction.leaves, leavesOf_eq, leavesOf_eq,
      List.filter_flatMap, List.filter_flatMap]
    exact flatMap_flatten_of_repeats hinside fun i hi _ hpart => ih i hi hpart

/-- The headers of the blocks of a tree, each before those inside. -/
def headers (i : Instruction) : List Header := i.preorder.filterMap fun j => j.kernel?.map Kernel.header

theorem headers_block (h : Header) (body : List Instruction) :
    (Instruction.block h body).headers = h :: body.flatMap headers := by
  rw [headers, preorder, preorderOf_eq, List.filterMap_cons, List.filterMap_flatMap]
  rfl

theorem Repeats.headers (h : i.Repeats scale parts) : parts.flatMap headers = i.headers := by
  induction i using tree_induction generalizing parts with
  | leaf op =>
    cases h with
    | gate => simp [List.flatMap_replicate, Instruction.headers, preorder, kernel?]
    | kept => rfl
  | block hd body ih =>
    obtain _ | _ | ⟨hinside⟩ := h
    rw [List.flatMap_singleton, headers_block, headers_block,
      flatMap_flatten_of_repeats hinside fun i hi _ hpart => ih i hi hpart]

/-- What is not repeated more than once stays. -/
theorem Repeats.once (h : i.Repeats 1 parts) : parts = [i] := by
  induction i using tree_induction generalizing parts with
  | leaf op => cases h <;> rfl
  | block hd body ih =>
    obtain _ | _ | ⟨hinside⟩ := h
    have hbody : _ = body.flatMap fun i => [i] := flatMap_flatten_of_repeats (f := fun i => [i]) hinside
      fun i hi part hpart => (List.flatMap_singleton' part).trans (ih i hi hpart)
    rw [List.flatMap_singleton', List.flatMap_singleton'] at hbody
    rw [hbody]

end

end Instruction

namespace Kernel

theorem fold_body (scale : ℕ) (k : Kernel) : (k.fold scale).body = k.body.flatMap (Instruction.fold scale) :=
  Instruction.foldOf_eq scale k.body

theorem operations_fold {scale : ℕ} (hscale : 1 ≤ scale) (k : Kernel) :
    (k.fold scale).operations = k.operations.flatMap (Operation.copies scale) := by
  rw [operations_eq, operations_eq, fold_body, List.flatMap_assoc, List.flatMap_assoc]
  exact List.flatMap_congr fun i _ => (Instruction.repeats_fold hscale i).operations

theorem disabled_fold {scale : ℕ} (hscale : 1 ≤ scale) (k : Kernel) :
    (k.fold scale).leaves.filter (!·.enabled) = k.leaves.filter (!·.enabled) := by
  rw [leaves_eq, leaves_eq, fold_body, List.flatMap_assoc, List.filter_flatMap, List.filter_flatMap]
  exact List.flatMap_congr fun i _ => (Instruction.repeats_fold hscale i).disabled

theorem fold_one (k : Kernel) : k.fold 1 = k := by
  have hbody : (k.fold 1).body = k.body.flatMap fun i => [i] :=
    (k.fold_body 1).trans (List.flatMap_congr fun i _ => (Instruction.repeats_fold le_rfl i).once)
  rw [List.flatMap_singleton'] at hbody
  exact congrArg (Kernel.mk k.header) hbody

end Kernel

/-- Folding a kernel made by edits never fails. The operations that take part afterwards are those from before in
their order, each gate of a few kinds on two bits in so many copies, one after the other. The tree is the same but
for these copies, with all headers and all disabled operations, and with one copy of each it is the same. -/
theorem folding_repeats_enabled_gates (k : Kernel) (hk : k.Built) (scale : ℕ) (hscale : 1 ≤ scale) :
    ∃ k', k.foldInPlace scale = .ok k' ∧
      k'.operations = k.operations.flatMap (Operation.copies scale) ∧
      (Instruction.ofKernel k).Repeats scale [.ofKernel k'] ∧
      (Instruction.ofKernel k').headers = (Instruction.ofKernel k).headers ∧
      k'.leaves.filter (!·.enabled) = k.leaves.filter (!·.enabled) ∧
      (scale = 1 → k' = k) := by
  have hrepeats : (Instruction.ofKernel k).Repeats scale [.ofKernel (k.fold scale)] :=
    Instruction.repeats_fold hscale (.ofKernel k)
  refine ⟨k.fold scale, Kernel.Scoped.foldInPlace hk.scoped scale, k.operations_fold hscale, hrepeats, ?_,
    k.disabled_fold hscale, ?_⟩
  · simpa using hrepeats.headers
  · rintro rfl
    exact k.fold_one

def idleBlock : Kernel := (Kernel.named "idle").push (.leaf { name := "CZ", bits := [1, 2] })

def swapBlock : Kernel :=
  ((Kernel.named "swaps").push (.leaf { name := "swap", bits := [0, 2] })).push
    (.leaf { name := "CY", bits := [0, 2], enabled := false })

/-- Gates on two bits in any spelling, some of them disabled or in a disabled block. -/
def spelledKernel : Kernel :=
  ((((Kernel.named "spelled").push (.leaf { name := "H", bits := [0] })).push
    (.leaf { name := "cNoT", bits := [0, 1] })).push ((Instruction.ofKernel idleBlock).setEnabled false)).push
    (.ofKernel swapBlock)

theorem folding_repeats_enabled_gates_spelledKernel :
    spelledKernel.Built ∧ ∃ k', spelledKernel.foldInPlace 3 = .ok k' ∧
      k'.operations.map Operation.name = ["H", "cNoT", "cNoT", "cNoT", "swap", "swap", "swap"] ∧
      (Instruction.ofKernel k').headers.map Header.name = ["spelled", "idle", "swaps"] ∧
      k'.leaves.filter (!·.enabled) = [{ name := "CY", bits := [0, 2], enabled := false }] := by
  have hidle : idleBlock.Built := .push (.named _ _) (.operation _)
  have hswap : swapBlock.Built := .push (.push (.named _ _) (.operation _)) (.operation _)
  have hbuilt : spelledKernel.Built :=
    .push (.push (.push (.push (.named _ _) (.operation _)) (.operation _)) (.setEnabled false hidle)) hswap
  obtain ⟨k', hok, hoperations, -, hheaders, hdisabled, -⟩ :=
    folding_repeats_enabled_gates spelledKernel hbuilt 3 (by decide)
  refine ⟨hbuilt, k', hok, ?_, ?_, ?_⟩
  · rw [hoperations]
    cbv
  · rw [hheaders]
    cbv
  · rw [hdisabled]
    decide

end QuantumKernels
