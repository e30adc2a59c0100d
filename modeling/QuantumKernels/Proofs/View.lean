import QuantumKernels.Proofs.Binding
import QuantumKernels.Proofs.Traversal

/-!
# Views of the enabled parts

The view of a kernel holds no disabled instruction, and its operations are those of the kernel that take part. A
kernel that holds no disabled instruction is its own view. Binding changes no flag, so it may come before the view
or after it.
-/
namespace QuantumKernels

namespace Instruction

/-- What is left of an enabled instruction: the enabled instructions in a block, under the header of the block. -/
inductive Viewed : Instruction → Instruction → Prop
  | leaf (op : Operation) : Viewed (leaf op) (leaf op)
  | block {h : Header} {body body' : List Instruction} (inside : List.Forall₂ Viewed (body.filter isEnabled) body') :
      Viewed (block h body) (block h body')

theorem view_of_disabled {i : Instruction} (h : i.isEnabled = false) : i.view = [] := by
  cases i with
  | leaf op => exact if_neg (Bool.eq_false_iff.mp h)
  | block hd body => exact if_neg (Bool.eq_false_iff.mp h)

theorem forall₂_viewOf {body : List Instruction}
    (h : ∀ i ∈ body, i.isEnabled = true → ∃ j, i.view = [j] ∧ i.Viewed j) :
    List.Forall₂ Viewed (body.filter isEnabled) (view.viewOf body) := by
  induction body with
  | nil => exact .nil
  | cons i rest ih =>
    obtain ⟨hfirst, hrest⟩ := List.forall_mem_cons.mp h
    rw [view.viewOf]
    cases henabled : i.isEnabled with
    | false =>
      rw [view_of_disabled henabled, List.filter_cons_of_neg (by simp [henabled])]
      exact ih hrest
    | true =>
      obtain ⟨j, hview, hviewed⟩ := hfirst henabled
      rw [hview, List.filter_cons_of_pos henabled]
      exact .cons hviewed (ih hrest)

theorem exists_viewed {i : Instruction} (h : i.isEnabled = true) : ∃ j, i.view = [j] ∧ i.Viewed j := by
  induction i using tree_induction with
  | leaf op => exact ⟨leaf op, if_pos h, .leaf op⟩
  | block hd body ih => exact ⟨block hd (view.viewOf body), if_pos h, .block (forall₂_viewOf ih)⟩

/-- Nothing at any depth of a view is disabled. -/
theorem enabled_of_mem_view (i : Instruction) : ∀ j ∈ i.view, ∀ m ∈ j.preorder, m.isEnabled = true := by
  induction i using tree_induction with
  | leaf op =>
    intro j hj m hm
    rw [view] at hj
    split at hj
    · rename_i henabled
      obtain rfl := List.mem_singleton.mp hj
      obtain rfl := List.mem_singleton.mp hm
      exact henabled
    · cases hj
  | block hd body ih =>
    intro j hj
    rw [view] at hj
    split at hj
    · rename_i henabled
      obtain rfl := List.mem_singleton.mp hj
      refine forall_mem_preorder_block.mpr ⟨henabled, fun i' hi' => ?_⟩
      rw [viewOf_eq] at hi'
      obtain ⟨i, hi, hi'⟩ := List.mem_flatMap.mp hi'
      exact ih i hi i' hi'
    · cases hj

theorem viewOf_eq_self {body : List Instruction} (h : ∀ i ∈ body, i.view = [i]) : view.viewOf body = body := by
  rw [viewOf_eq, List.flatMap_congr h, List.flatMap_singleton']

/-- A tree with nothing disabled stays as it is. -/
theorem view_eq_self {i : Instruction} (h : ∀ m ∈ i.preorder, m.isEnabled = true) : i.view = [i] := by
  induction i using tree_induction with
  | leaf op => exact if_pos (h _ (mem_preorder_self _))
  | block hd body ih =>
    obtain ⟨hself, hbelow⟩ := forall_mem_preorder_block.mp h
    rw [view, viewOf_eq_self fun i hi => ih i hi (hbelow i hi)]
    exact if_pos hself

theorem enabled_of_mem_enableAll (i : Instruction) : ∀ m ∈ i.enableAll.preorder, m.isEnabled = true := by
  induction i using tree_induction with
  | leaf op =>
    intro m hm
    obtain rfl := List.mem_singleton.mp hm
    rfl
  | block hd body ih =>
    rw [enableAll, enableAllOf_eq]
    exact forall_mem_preorder_block.mpr ⟨rfl, List.forall_mem_map.mpr ih⟩

/-- The leaves of what is left of an instruction in a view are the operations that take part. -/
theorem leaves_view (i : Instruction) : i.view.flatMap leaves = i.operations := by
  induction i using tree_induction with
  | leaf op =>
    rw [view, operations]
    split <;> rfl
  | block h body ih =>
    rw [view, operations]
    split
    · rw [List.flatMap_singleton, leaves, leavesOf_eq, viewOf_eq, List.flatMap_assoc, operationsOf_eq]
      exact List.flatMap_congr ih
    · rfl

section

variable {bindings : Dictionary Float}

theorem bindOf_viewOf {body body' : List Instruction} (hbody : bind.bindOf bindings body = .ok body')
    (h : ∀ i ∈ body, ∀ {i'}, i.bind bindings = .ok i' →
      List.Forall₂ (fun j j' => j.bind bindings = .ok j') i.view i'.view) :
    bind.bindOf bindings (view.viewOf body) = .ok (view.viewOf body') := by
  rw [bindOf_eq, mapM_eq_ok_iff] at hbody
  rw [bindOf_eq, mapM_eq_ok_iff, viewOf_eq, viewOf_eq]
  exact List.rel_flatMap (forall₂_with_mem hbody) fun i _ hi => h i hi.1 hi.2

/-- What is left of a bound instruction is what is left of the instruction, bound. -/
theorem forall₂_bind_view {i i' : Instruction} (h : i.bind bindings = .ok i') :
    List.Forall₂ (fun j j' => j.bind bindings = .ok j') i.view i'.view := by
  induction i using tree_induction generalizing i' with
  | leaf op =>
    obtain ⟨op', hop, hi'⟩ := bind_eq_ok_iff.mp h
    cases hi'
    -- binding an operation changes its parameters, not its flag
    obtain ⟨ps, -, hop'⟩ := bind_eq_ok_iff.mp hop
    cases hop'
    rw [view, view]
    split
    · exact .cons h .nil
    · exact .nil
  | block hd body ih =>
    obtain ⟨body', hbody, hi'⟩ := bind_eq_ok_iff.mp h
    cases hi'
    rw [view, view]
    split
    · exact .cons (bind_eq_ok_iff.mpr ⟨_, bindOf_viewOf hbody ih, rfl⟩) .nil
    · exact .nil

end

end Instruction

namespace Kernel

/-- A walk over the enabled copy of a kernel meets exactly the operations that take part. -/
theorem filterMap_preorder_view (k : Kernel) :
    k.view.preorder.filterMap Instruction.operation? = k.operations := by
  rw [← leaves_eq_filterMap, leaves_eq, operations_eq, view, Instruction.viewOf_eq, List.flatMap_assoc]
  exact List.flatMap_congr fun i _ => i.leaves_view

theorem mem_preorder {k : Kernel} {m : Instruction} : m ∈ k.preorder ↔ ∃ i ∈ k.body, m ∈ i.preorder := by
  rw [preorder, Instruction.preorderOf_eq, List.mem_flatMap]

theorem enabled_of_mem_view {k : Kernel} : ∀ m ∈ k.view.preorder, m.isEnabled = true := by
  intro m hm
  obtain ⟨j, hj, hm⟩ := mem_preorder.mp hm
  rw [view, Instruction.viewOf_eq] at hj
  obtain ⟨i, -, hj⟩ := List.mem_flatMap.mp hj
  exact i.enabled_of_mem_view j hj m hm

theorem view_eq_self {k : Kernel} (h : ∀ m ∈ k.preorder, m.isEnabled = true) : k.view = k := by
  have hbody := Instruction.viewOf_eq_self fun i hi =>
    Instruction.view_eq_self fun m hm => h m (mem_preorder.mpr ⟨i, hi, hm⟩)
  exact congrArg (Kernel.mk k.header) hbody

theorem enabled_of_mem_enableAll {k : Kernel} : ∀ m ∈ k.enableAll.preorder, m.isEnabled = true :=
  fun m hm => (Instruction.ofKernel k).enabled_of_mem_enableAll m (List.mem_cons_of_mem _ hm)

theorem viewed_view (k : Kernel) : (Instruction.ofKernel k).Viewed (.ofKernel k.view) :=
  .block (Instruction.forall₂_viewOf fun _ _ => Instruction.exists_viewed)

/-- The enabled parts may be taken before variables are bound or afterwards. -/
theorem evaluate_view {k k' : Kernel} {values : List Float} (h : k.evaluate values = .ok k') :
    k.view.evaluate values = .ok k'.view := by
  rw [evaluate] at h
  split at h
  · rename_i hlen
    obtain ⟨body', hbody, hk'⟩ := bind_eq_ok_iff.mp h
    cases hk'
    have hview := Instruction.bindOf_viewOf hbody fun _ _ => Instruction.forall₂_bind_view
    exact (if_pos hlen).trans (bind_eq_ok_iff.mpr ⟨_, hview, rfl⟩)
  · cases h

end Kernel

/-- The view of a kernel holds, under the same headers at every depth, what is enabled, and nothing disabled; a walk
over it meets the operations that take part. It is its own view. On a kernel made by edits, with a value for each
variable, binding the view gives the view of what binding the kernel gives. With everything enabled the tree is its
own view, the same but for the flags. -/
theorem views_hold_enabled_parts (k : Kernel) :
    (∀ i ∈ k.view.preorder, i.isEnabled = true) ∧
    (Instruction.ofKernel k).Viewed (.ofKernel k.view) ∧
    (Traversal.ofKernel k.view).rest.filterMap Instruction.operation? = k.operations ∧
    k.view.view = k.view ∧
    (k.Built → ∀ values, values.length = k.header.vars.length →
      ∃ k', k.evaluate values = .ok k' ∧ k.view.evaluate values = .ok k'.view) ∧
    k.enableAll.view = k.enableAll ∧
    (∀ i ∈ (Instruction.ofKernel k.enableAll).preorder, i.isEnabled = true) ∧
    (Instruction.ofKernel k).Alike (fun h => { h with enabled := true })
      (fun op op' => op' = { op with enabled := true }) (.ofKernel k.enableAll) := by
  refine ⟨Kernel.enabled_of_mem_view, k.viewed_view, ?_, Kernel.view_eq_self Kernel.enabled_of_mem_view, ?_,
    Kernel.view_eq_self Kernel.enabled_of_mem_enableAll, (Instruction.ofKernel k).enabled_of_mem_enableAll,
    (Instruction.ofKernel k).alike_enableAll⟩
  · rw [Traversal.rest_ofKernel, k.filterMap_preorder_view]
  · intro hk values hlen
    obtain ⟨k', hk', -⟩ := Kernel.Scoped.exists_evaluate hk.scoped hlen
    exact ⟨k', hk', Kernel.evaluate_view hk'⟩

/-- Next to a block with a disabled operation, which has variables, a disabled block with an enabled operation. -/
def shadedKernel : Kernel :=
  (nestedKernel.push ((Instruction.ofKernel ((Kernel.named "idle").push
    (.leaf { name := "X", bits := [0] }))).setEnabled false)).push (.leaf { name := "H", bits := [1] })

theorem views_hold_enabled_parts_shadedKernel :
    shadedKernel.Built ∧ shadedKernel.view.preorder.map Instruction.name = ["inner", "H"] ∧
      (∃ k', shadedKernel.evaluate [0.5, 0.25, 2] = .ok k' ∧ shadedKernel.view.evaluate [0.5, 0.25, 2] = .ok k'.view) ∧
      shadedKernel.enableAll.view.operations.map Operation.name = ["Rx", "X", "H"] := by
  have hnested : nestedKernel.Built :=
    .push (.declare _ (.named "outer" .gate)) (.push (.named "inner" .gate) (.operation _))
  have hidle : ((Kernel.named "idle").push (.leaf { name := "X", bits := [0] })).Built :=
    .push (.named _ _) (.operation _)
  have hbuilt : shadedKernel.Built := .push (.push hnested (.setEnabled false hidle)) (.operation _)
  have hvars : shadedKernel.header.vars = ["spare", "theta", "phi"] := nestedKernel_vars
  obtain ⟨-, -, -, -, hevaluate, henabled, -, -⟩ := views_hold_enabled_parts shadedKernel
  refine ⟨hbuilt, rfl, hevaluate hbuilt [0.5, 0.25, 2] (by rw [hvars]; rfl), ?_⟩
  rw [henabled]
  rfl

end QuantumKernels
