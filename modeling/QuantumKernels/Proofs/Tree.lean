import QuantumKernels.Kernel.Edit
import Mathlib.Data.List.Flatten
import Mathlib.Data.List.Sublists

/-!
# Trees of instructions

Induction over instructions, the lists of leaves and operations of a body as concatenations over
its instructions, and trees of one shape. The width of a list of bits is the least bound above
them. Edits at the end of a kernel append to its body and leave its name.
-/
namespace QuantumKernels

theorem mem_insertAscending {n m : ℕ} {l : List ℕ} :
    m ∈ insertAscending n l ↔ m = n ∨ m ∈ l := by
  induction l with
  | nil => simp [insertAscending]
  | cons k rest ih =>
    rw [insertAscending]
    split_ifs with hlt heq
    · simp
    · simp [heq]
    · simp only [List.mem_cons, ih]
      tauto

theorem mem_foldl_insertAscending {m : ℕ} (l sorted : List ℕ) :
    m ∈ l.foldl (fun sorted n => insertAscending n sorted) sorted ↔ m ∈ l ∨ m ∈ sorted := by
  induction l generalizing sorted with
  | nil => simp
  | cons n rest ih =>
    simp only [List.foldl_cons, ih, mem_insertAscending, List.mem_cons]
    tauto

theorem mem_ascending {m : ℕ} {l : List ℕ} : m ∈ ascending l ↔ m ∈ l := by
  simp [ascending, mem_foldl_insertAscending]

theorem pairwise_insertAscending {n : ℕ} {l : List ℕ} (h : l.Pairwise (· < ·)) :
    (insertAscending n l).Pairwise (· < ·) := by
  induction l with
  | nil => simp [insertAscending]
  | cons m rest ih =>
    obtain ⟨hm, hrest⟩ := List.pairwise_cons.mp h
    rw [insertAscending]
    split_ifs with hlt heq
    · refine List.pairwise_cons.mpr ⟨fun k hk => ?_, h⟩
      rcases List.mem_cons.mp hk with rfl | hk
      · exact hlt
      · exact hlt.trans (hm k hk)
    · exact h
    · refine List.pairwise_cons.mpr ⟨fun k hk => ?_, ih hrest⟩
      rcases mem_insertAscending.mp hk with rfl | hk
      · omega
      · exact hm k hk

theorem pairwise_ascending (l : List ℕ) : (ascending l).Pairwise (· < ·) := by
  have hfold : ∀ (l sorted : List ℕ), sorted.Pairwise (· < ·) →
      (l.foldl (fun sorted n => insertAscending n sorted) sorted).Pairwise (· < ·) := by
    intro l
    induction l with
    | nil => exact fun _ h => h
    | cons n rest ih => exact fun sorted h => ih _ (pairwise_insertAscending h)
  exact hfold l [] .nil

theorem foldl_max_le_iff (f : ℕ → ℕ) {l : List ℕ} {start bound : ℕ} :
    l.foldl (fun w n => max w (f n)) start ≤ bound ↔ start ≤ bound ∧ ∀ n ∈ l, f n ≤ bound := by
  induction l generalizing start with
  | nil => simp
  | cons n rest ih => rw [List.foldl_cons, ih, Nat.max_le, List.forall_mem_cons, and_assoc]

theorem foldl_max_le {bound : ℕ} {l : List ℕ} (f : ℕ → ℕ) (h : ∀ n ∈ l, f n ≤ bound) {start : ℕ}
    (hstart : start ≤ bound) : l.foldl (fun w n => max w (f n)) start ≤ bound :=
  (foldl_max_le_iff f).mpr ⟨hstart, h⟩

/-- The width is the least number above all numbers of a list. -/
theorem widthOf_le_iff {bound : ℕ} {l : List ℕ} : widthOf l ≤ bound ↔ ∀ n ∈ l, n < bound :=
  (foldl_max_le_iff (· + 1)).trans (and_iff_right (Nat.zero_le bound))

theorem widthOf_le {bound : ℕ} {l : List ℕ} (h : ∀ n ∈ l, n < bound) : widthOf l ≤ bound :=
  widthOf_le_iff.mpr h

theorem lt_widthOf {n : ℕ} {l : List ℕ} (h : n ∈ l) : n < widthOf l :=
  widthOf_le_iff.mp le_rfl n h

/-- The width is one more than the last bit in ascending order. -/
theorem widthOf_eq_getLast? (l : List ℕ) : widthOf l = (ascending l).getLast?.elim 0 (· + 1) := by
  cases hlast : (ascending l).getLast? with
  | none =>
    have hnil : ∀ n ∈ l, n < 0 := by
      intro n hn
      have := mem_ascending.mpr hn
      rw [List.getLast?_eq_none_iff.mp hlast] at this
      cases this
    exact Nat.le_zero.mp (widthOf_le hnil)
  | some last =>
    have hmem : last ∈ l := mem_ascending.mp (List.mem_of_getLast? hlast)
    refine le_antisymm (widthOf_le fun n hn => ?_) (lt_widthOf hmem)
    obtain ⟨front, hfront⟩ := List.getLast?_eq_some_iff.mp hlast
    have hpairwise := pairwise_ascending l
    have hn' := mem_ascending.mpr hn
    rw [hfront] at hpairwise hn'
    rcases List.mem_append.mp hn' with hn' | hn'
    · have := (List.pairwise_append.mp hpairwise).2.2 n hn' last (by simp)
      exact this.trans (Nat.lt_succ_self last)
    · simp at hn'
      simp [hn']

theorem widthOf_append_singleton {n : ℕ} {l : List ℕ} (h : n ∈ l) : widthOf (l ++ [n]) = widthOf l := by
  have hlt : n < l.foldl (fun w n => max w (n + 1)) 0 := lt_widthOf h
  simp only [widthOf, List.foldl_append, List.foldl_cons, List.foldl_nil]
  omega

namespace Instruction

/-- Two trees of one shape, whose operations at the same places are related by `R`; the headers of
blocks in the second are those of the first as changed by `f`. -/
inductive Alike (f : Header → Header) (R : Operation → Operation → Prop) :
    Instruction → Instruction → Prop
  | leaf {op op' : Operation} (related : R op op') : Alike f R (leaf op) (leaf op')
  | block {h : Header} {body body' : List Instruction} (inside : List.Forall₂ (Alike f R) body body') :
      Alike f R (block h body) (block (f h) body')

/-- What holds of a block may be shown from all instructions in it. -/
theorem tree_induction {P : Instruction → Prop} (leaf : ∀ op, P (.leaf op))
    (block : ∀ h body, (∀ i ∈ body, P i) → P (.block h body)) (i : Instruction) : P i := by
  refine @Instruction.rec P (fun body => ∀ i ∈ body, P i) leaf block ?_ ?_ i
  · simp
  · intro i rest hi hrest j hj
    rcases List.mem_cons.mp hj with rfl | hj
    · exact hi
    · exact hrest j hj

theorem operationsOf_eq (body : List Instruction) :
    operations.operationsOf body = body.flatMap operations := by
  induction body with
  | nil => rfl
  | cons i rest ih => simp [operations.operationsOf, ih]

theorem leavesOf_eq (body : List Instruction) :
    leaves.leavesOf body = body.flatMap leaves := by
  induction body with
  | nil => rfl
  | cons i rest ih => simp [leaves.leavesOf, ih]

theorem mem_leaves_block {h : Header} {body : List Instruction} {op : Operation} :
    op ∈ (block h body).leaves ↔ ∃ i ∈ body, op ∈ i.leaves := by
  rw [leaves, leavesOf_eq, List.mem_flatMap]

theorem preorderOf_eq (body : List Instruction) : preorder.preorderOf body = body.flatMap preorder := by
  induction body with
  | nil => rfl
  | cons i rest ih => simp [preorder.preorderOf, ih]

theorem mem_preorder_self (i : Instruction) : i ∈ i.preorder := by
  cases i <;> simp [preorder]

theorem mem_preorder_block {h : Header} {body : List Instruction} {i j : Instruction}
    (hi : i ∈ body) (hj : j ∈ i.preorder) : j ∈ (block h body).preorder := by
  rw [preorder, preorderOf_eq]
  exact List.mem_cons_of_mem _ (List.mem_flatMap.mpr ⟨i, hi, hj⟩)

theorem forall_mem_preorder_block {P : Instruction → Prop} {h : Header} {body : List Instruction} :
    (∀ j ∈ (block h body).preorder, P j) ↔ P (block h body) ∧ ∀ i ∈ body, ∀ j ∈ i.preorder, P j := by
  rw [preorder, preorderOf_eq, List.forall_mem_cons]
  simp only [List.mem_flatMap, forall_exists_index, and_imp]
  exact and_congr_right fun _ => ⟨fun h i hi j hj => h j i hi hj, fun h j i hi hj => h i hi j hj⟩

/-- The leaves stand in the order in which a walk meets them. -/
theorem leaves_eq_filterMap (i : Instruction) : i.leaves = i.preorder.filterMap operation? := by
  induction i using tree_induction with
  | leaf op => rfl
  | block h body ih =>
    rw [leaves, leavesOf_eq, preorder, preorderOf_eq, List.filterMap_cons_none rfl, List.filterMap_flatMap]
    exact List.flatMap_congr fun i hi => ih i hi

/-- The operations that take part are some of the leaves, in the same order. -/
theorem operations_sublist_leaves (i : Instruction) : i.operations.Sublist i.leaves := by
  induction i using tree_induction with
  | leaf op =>
    simp only [operations, leaves]
    split
    · exact List.Sublist.refl _
    · exact List.nil_sublist _
  | block h body ih =>
    simp only [operations, leaves]
    split
    · rw [operationsOf_eq, leavesOf_eq]
      induction body with
      | nil => simp
      | cons i rest ihr =>
        simp only [List.flatMap_cons]
        exact (ih i (by simp)).append (ihr fun j hj => ih j (by simp [hj]))
    · exact List.nil_sublist _

theorem mem_leaves_of_mem_operations {i : Instruction} {op : Operation} (h : op ∈ i.operations) :
    op ∈ i.leaves :=
  (operations_sublist_leaves i).subset h

theorem mem_bits {i : Instruction} {q : ℕ} : q ∈ i.bits ↔ ∃ op ∈ i.leaves, q ∈ op.bits := by
  cases i with
  | leaf op => simp [bits, leaves]
  | block h body => simp [bits, leaves, mem_ascending]

end Instruction

namespace Kernel

theorem operations_eq (k : Kernel) : k.operations = k.body.flatMap Instruction.operations :=
  Instruction.operationsOf_eq k.body

theorem leaves_eq (k : Kernel) : k.leaves = k.body.flatMap Instruction.leaves :=
  Instruction.leavesOf_eq k.body

theorem mem_leaves {k : Kernel} {op : Operation} : op ∈ k.leaves ↔ ∃ i ∈ k.body, op ∈ i.leaves :=
  Instruction.mem_leaves_block (h := k.header)

theorem mem_leaves_of_mem_operations {k : Kernel} {op : Operation} (h : op ∈ k.operations) : op ∈ k.leaves := by
  rw [operations_eq, List.mem_flatMap] at h
  obtain ⟨i, hi, hop⟩ := h
  exact mem_leaves.mpr ⟨i, hi, Instruction.mem_leaves_of_mem_operations hop⟩

theorem lt_width {k : Kernel} {op : Operation} {q : ℕ} (hop : op ∈ k.operations) (hq : q ∈ op.bits) :
    q < k.width :=
  lt_widthOf (List.mem_flatMap.mpr ⟨op, mem_leaves_of_mem_operations hop, hq⟩)

theorem leaves_eq_filterMap (k : Kernel) :
    k.leaves = k.preorder.filterMap Instruction.operation? :=
  (Instruction.ofKernel k).leaves_eq_filterMap

theorem pushAll_cons (k : Kernel) (i : Instruction) (rest : List Instruction) :
    k.pushAll (i :: rest) = (k.push i).pushAll rest := rfl

theorem pushAll_body (k : Kernel) (l : List Instruction) : (k.pushAll l).body = k.body ++ l := by
  induction l generalizing k with
  | nil => simp [pushAll]
  | cons i rest ih =>
    rw [pushAll_cons, ih]
    simp [push]

theorem pushAll_name (k : Kernel) (l : List Instruction) : (k.pushAll l).name = k.name := by
  induction l generalizing k with
  | nil => rfl
  | cons i rest ih =>
    rw [pushAll_cons, ih]
    rfl

end Kernel

end QuantumKernels
