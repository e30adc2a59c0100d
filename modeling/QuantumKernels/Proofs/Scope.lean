import QuantumKernels.Kernel.Edit
import QuantumKernels.Kernel.View
import QuantumKernels.Proofs.Outcome
import QuantumKernels.Proofs.Relabel

/-!
# Scope of variables

A block is well scoped if it declares, each once, the variables that the instructions in it bring.
Then the variables of all formulas below it, at any depth, are declared. Edits, relabelling, views
and changes of the enabled flags keep kernels well scoped.
-/
namespace QuantumKernels

namespace Formula

theorem mem_addNames {name : String} {known names : List String} :
    name ∈ addNames known names ↔ name ∈ known ∨ name ∈ names := by
  induction names generalizing known with
  | nil => simp [addNames]
  | cons first rest ih =>
    have hfirst : addNames known (first :: rest) =
        addNames (if known.contains first then known else known ++ [first]) rest := rfl
    rw [hfirst, ih, List.mem_cons]
    split_ifs with hknown
    · have : first ∈ known := by simpa using hknown
      constructor
      · tauto
      · rintro (h | rfl | h) <;> tauto
    · rw [List.mem_append, List.mem_singleton]
      tauto

theorem nodup_addNames {known names : List String} (h : known.Nodup) : (addNames known names).Nodup := by
  induction names generalizing known with
  | nil => exact h
  | cons first rest ih =>
    refine ih ?_
    dsimp only
    split_ifs with hknown
    · exact h
    · have hnew : first ∉ known := by simpa using hknown
      refine List.nodup_append.mpr ⟨h, List.nodup_singleton first, fun name hname other hother => ?_⟩
      rw [List.mem_singleton.mp hother]
      rintro rfl
      exact hnew hname

theorem addNames_of_subset {known names : List String} (h : names ⊆ known) :
    addNames known names = known := by
  induction names with
  | nil => rfl
  | cons first rest ih =>
    obtain ⟨hfirst, hrest⟩ := List.cons_subset.mp h
    have hkeep : addNames known (first :: rest) = addNames known rest := by
      simp [addNames, hfirst]
    rw [hkeep, ih hrest]

end Formula

theorem Header.mem_vars_declare {h : Header} {names : List String} {name : String} :
    name ∈ (h.declare names).vars ↔ name ∈ h.vars ∨ name ∈ names :=
  Formula.mem_addNames

theorem Header.nodup_vars_declare {h : Header} (names : List String) (hnodup : h.vars.Nodup) :
    (h.declare names).vars.Nodup :=
  Formula.nodup_addNames hnodup

/-- Instructions whose variables are declared leave the header as it is. -/
theorem pushAll_of_declared (h : Header) (before : List Instruction) {body : List Instruction}
    (hbody : ∀ i ∈ body, i.declared ⊆ h.vars) :
    (Kernel.mk h before).pushAll body = ⟨h, before ++ body⟩ := by
  induction body generalizing before with
  | nil => simp [Kernel.pushAll]
  | cons i rest ih =>
    have hpush : (Kernel.mk h before).push i = ⟨h, before ++ [i]⟩ := by
      rw [Kernel.push, Header.declare, Formula.addNames_of_subset (hbody i (by simp))]
    rw [Kernel.pushAll_cons, hpush, ih _ fun j hj => hbody j (by simp [hj])]
    simp

theorem declared_subset_pushAll (k : Kernel) (body : List Instruction) :
    k.header.vars ⊆ (k.pushAll body).header.vars ∧
      ∀ i ∈ body, i.declared ⊆ (k.pushAll body).header.vars := by
  induction body generalizing k with
  | nil => exact ⟨List.Subset.refl _, by simp⟩
  | cons i rest ih =>
    obtain ⟨hkeep, hrest⟩ := ih (k.push i)
    rw [Kernel.pushAll_cons]
    refine ⟨fun name hname => hkeep (Header.mem_vars_declare.mpr (.inl hname)), ?_⟩
    intro j hj
    rcases List.mem_cons.mp hj with rfl | hj
    · exact fun name hname => hkeep (Header.mem_vars_declare.mpr (.inr hname))
    · exact hrest j hj

namespace Instruction

inductive Scoped : Instruction → Prop
  | leaf (op : Operation) : Scoped (leaf op)
  | block {h : Header} {body : List Instruction} (nodup : h.vars.Nodup)
      (declared : ∀ i ∈ body, i.declared ⊆ h.vars) (inside : ∀ i ∈ body, Scoped i) :
      Scoped (block h body)

theorem scoped_block {h : Header} {body : List Instruction} : (block h body).Scoped ↔
    h.vars.Nodup ∧ (∀ i ∈ body, i.declared ⊆ h.vars) ∧ ∀ i ∈ body, i.Scoped := by
  constructor
  · rintro (_ | ⟨hnodup, hdeclared, hinside⟩)
    exact ⟨hnodup, hdeclared, hinside⟩
  · rintro ⟨hnodup, hdeclared, hinside⟩
    exact .block hnodup hdeclared hinside

/-- A scoped instruction brings the variables of all operations below it. -/
theorem Scoped.vars_subset {i : Instruction} (hi : i.Scoped) {op : Operation} (hop : op ∈ i.leaves) :
    op.vars ⊆ i.declared := by
  induction hi with
  | leaf op' =>
    obtain rfl : op = op' := by simpa [leaves] using hop
    exact List.Subset.refl _
  | @block h body _ hdeclared _ ih =>
    obtain ⟨j, hj, hop⟩ := mem_leaves_block.mp hop
    exact List.Subset.trans (ih j hj hop) (hdeclared j hj)

theorem Scoped.declare {h : Header} {body : List Instruction} (hblock : (Instruction.block h body).Scoped)
    (names : List String) : (Instruction.block (h.declare names) body).Scoped := by
  obtain ⟨hnodup, hdeclared, hinside⟩ := scoped_block.mp hblock
  refine .block (Header.nodup_vars_declare _ hnodup) (fun j hj name hname => ?_) hinside
  exact Header.mem_vars_declare.mpr (.inl (hdeclared j hj hname))

/-- An instruction that brings variables may enter a block that comes to declare them. -/
theorem Scoped.enter {h : Header} {body body' : List Instruction} {i : Instruction}
    (hblock : (Instruction.block h body).Scoped) (hi : i.Scoped) (hbody : ∀ j ∈ body', j = i ∨ j ∈ body) :
    (Instruction.block (h.declare i.declared) body').Scoped := by
  obtain ⟨hnodup, hdeclared, hinside⟩ := scoped_block.mp (hblock.declare i.declared)
  refine .block hnodup (fun j hj => ?_) fun j hj => ?_
  · rcases hbody j hj with rfl | hj
    · exact fun name hname => Header.mem_vars_declare.mpr (.inr hname)
    · exact hdeclared j hj
  · rcases hbody j hj with rfl | hj
    · exact hi
    · exact hinside j hj

/-- Changes that keep the variables of each operation and each block keep an instruction scoped. -/
theorem Alike.scoped {f : Header → Header} {R : Operation → Operation → Prop}
    (hf : ∀ h, (f h).vars = h.vars) (hR : ∀ op op', R op op' → op'.vars = op.vars)
    {i i' : Instruction} (halike : i.Alike f R i') (hi : i.Scoped) :
    i'.Scoped ∧ i'.declared = i.declared := by
  induction i using tree_induction generalizing i' with
  | leaf op =>
    obtain ⟨hop⟩ := halike
    exact ⟨.leaf _, hR _ _ hop⟩
  | block h body ih =>
    obtain _ | ⟨hinside⟩ := halike
    obtain ⟨hnodup, hdeclared, hscoped⟩ := scoped_block.mp hi
    refine ⟨.block (hf h ▸ hnodup) (fun j' hj' => ?_) fun j' hj' => ?_, hf h⟩ <;>
      obtain ⟨j, hj, hjj'⟩ := exists_mem_of_forall₂ hinside hj' <;>
      obtain ⟨hscoped', heq⟩ := ih j hj hjj' (hscoped j hj)
    · rw [hf, heq]
      exact hdeclared j hj
    · exact hscoped'

/-- Instructions may leave a block, which keeps its variables. -/
theorem Scoped.leave {h : Header} {body body' : List Instruction}
    (hblock : (Instruction.block h body).Scoped) (hbody : body' ⊆ body) :
    (Instruction.block h body').Scoped := by
  obtain ⟨hnodup, hdeclared, hinside⟩ := scoped_block.mp hblock
  exact .block hnodup (fun j hj => hdeclared j (hbody hj)) fun j hj => hinside j (hbody hj)

theorem Scoped.setEnabled {i : Instruction} (hi : i.Scoped) (on : Bool) : (i.setEnabled on).Scoped := by
  cases i with
  | leaf op => exact .leaf _
  | block h body =>
    obtain ⟨hnodup, hdeclared, hinside⟩ := scoped_block.mp hi
    exact .block hnodup hdeclared hinside

theorem enableAllOf_eq (body : List Instruction) : enableAll.enableAllOf body = body.map enableAll := by
  induction body with
  | nil => rfl
  | cons i rest ih => simp [enableAll.enableAllOf, ih]

theorem alike_enableAll (i : Instruction) : i.Alike (fun h => { h with enabled := true })
    (fun op op' => op' = { op with enabled := true }) i.enableAll := by
  induction i using tree_induction with
  | leaf op => exact .leaf rfl
  | block h body ih =>
    rw [enableAll, enableAllOf_eq]
    exact .block (List.forall₂_map_right_iff.mpr (List.forall₂_same.mpr ih))

theorem viewOf_eq (body : List Instruction) : view.viewOf body = body.flatMap view := by
  induction body with
  | nil => rfl
  | cons i rest ih => simp [view.viewOf, ih]

theorem Scoped.viewOf {h : Header} {body : List Instruction} (hblock : (Instruction.block h body).Scoped)
    (hbody : ∀ i ∈ body, ∀ j ∈ i.view, j.Scoped ∧ j.declared = i.declared) :
    (Instruction.block h (view.viewOf body)).Scoped := by
  obtain ⟨hnodup, hdeclared, -⟩ := scoped_block.mp hblock
  rw [viewOf_eq]
  refine .block hnodup (fun j hj => ?_) fun j hj => ?_ <;>
    obtain ⟨i, hi, hj⟩ := List.mem_flatMap.mp hj
  · rw [(hbody i hi j hj).2]
    exact hdeclared i hi
  · exact (hbody i hi j hj).1

/-- What is left of an instruction in a view brings what the instruction brought. -/
theorem Scoped.view {i : Instruction} (hi : i.Scoped) :
    ∀ j ∈ i.view, j.Scoped ∧ j.declared = i.declared := by
  induction hi with
  | leaf op =>
    intro j hj
    rw [Instruction.view] at hj
    split at hj
    · obtain rfl := List.mem_singleton.mp hj
      exact ⟨.leaf op, rfl⟩
    · cases hj
  | block hnodup hdeclared hinside ih =>
    intro j hj
    rw [Instruction.view] at hj
    split at hj
    · obtain rfl := List.mem_singleton.mp hj
      exact ⟨Scoped.viewOf (.block hnodup hdeclared hinside) ih, rfl⟩
    · cases hj

end Instruction

namespace Kernel

def Scoped (k : Kernel) : Prop := (Instruction.ofKernel k).Scoped

theorem scoped_named (name : String) (kind : Kind) : (named name kind).Scoped :=
  .block .nil nofun nofun

theorem Scoped.declare {k : Kernel} (hk : k.Scoped) (name : String) : (k.declare name).Scoped :=
  Instruction.Scoped.declare hk [name]

theorem Scoped.push {k : Kernel} {i : Instruction} (hk : k.Scoped) (hi : i.Scoped) :
    (k.push i).Scoped := by
  refine Instruction.Scoped.enter hk hi fun j hj => ?_
  rcases List.mem_append.mp hj with hj | hj
  · exact .inr hj
  · exact .inl (List.mem_singleton.mp hj)

theorem Scoped.insert {k k' : Kernel} {position : ℕ} {i : Instruction} (hk : k.Scoped) (hi : i.Scoped)
    (h : k.insert position i = .ok k') : k'.Scoped := by
  rw [Kernel.insert] at h
  split at h
  · rename_i hlt
    cases h
    exact Instruction.Scoped.enter hk hi fun j hj => (List.mem_insertIdx hlt.le).mp hj
  · cases h

theorem Scoped.replace {k k' : Kernel} {position : ℕ} {i old : Instruction} (hk : k.Scoped) (hi : i.Scoped)
    (h : k.replace position i = .ok (old, k')) : k'.Scoped := by
  rw [Kernel.replace] at h
  split at h
  · cases h
    exact Instruction.Scoped.enter hk hi fun j hj => (List.mem_or_eq_of_mem_set hj).symm
  · cases h

theorem Scoped.remove {k k' : Kernel} {position : ℕ} {old : Instruction} (hk : k.Scoped)
    (h : k.remove position = .ok (old, k')) : k'.Scoped := by
  rw [Kernel.remove] at h
  split at h
  · cases h
    exact Instruction.Scoped.leave hk List.eraseIdx_subset
  · cases h

theorem Scoped.mapBits {k k' : Kernel} {map : List ℕ} (hk : k.Scoped) (h : k.mapBits map = .ok k') :
    k'.Scoped := by
  refine (Instruction.Alike.scoped ?_ ?_ (alike_mapBits h) hk).1
  · exact fun _ => rfl
  intro op op' hop
  rw [hop.rest]
  rfl

theorem Scoped.enableAll {k : Kernel} (hk : k.Scoped) : k.enableAll.Scoped := by
  refine (Instruction.Alike.scoped ?_ ?_ (Instruction.ofKernel k).alike_enableAll hk).1
  · exact fun _ => rfl
  intro op op' hop
  rw [hop]
  rfl

/-- The view of a kernel keeps the kernel itself, even if it is disabled. -/
theorem Scoped.view {k : Kernel} (hk : k.Scoped) : k.view.Scoped := by
  obtain ⟨-, -, hinside⟩ := Instruction.scoped_block.mp hk
  exact Instruction.Scoped.viewOf hk fun i hi => (hinside i hi).view

end Kernel

end QuantumKernels
