import QuantumKernels.Optimizer
import QuantumKernels.Proofs.Tree
import Mathlib.Logic.Relation

/-!
# Cancellation keeps what a kernel does

The operations of an optimized kernel come from those of the kernel by deleting pairs of
gates that undo each other, with nothing between the two on any of their bits. The headers
of the kernel and of its enabled blocks stay, declared variables left aside, and so does
the nesting of these blocks.
-/
namespace QuantumKernels

/-- The same self-inverse gate twice, without parameters and on the same bits, the order of
which counts only for gates that tell their bits apart. -/
structure Operation.Undoes (a b : Operation) : Prop where
  name : a.name = b.name
  selfInverse : a.name ∈ ["H", "X", "Y", "Z", "CNOT", "CY", "CZ", "CH", "Swap"]
  parameters : a.parameters = [] ∧ b.parameters = []
  bits : a.bits = b.bits ∨ a.name ∈ ["CZ", "Swap"] ∧ a.bits.Perm b.bits

/-- One pair that undoes itself is deleted; what stands between uses none of its bits. -/
inductive Deletion : List Operation → List Operation → Prop
  | pair (before between after : List Operation) {a b : Operation} (undoes : a.Undoes b)
      (free : ∀ op ∈ between, ∀ q ∈ op.bits, q ∉ a.bits ∧ q ∉ b.bits) :
      Deletion (before ++ (a :: between ++ b :: after)) (before ++ (between ++ after))

/-- Any number of deletions, one after another. -/
abbrev Cancels : List Operation → List Operation → Prop := Relation.ReflTransGen Deletion

theorem Deletion.sublist {l l' : List Operation} (h : Deletion l l') : l'.Sublist l := by
  obtain ⟨before, between, after, _, _⟩ := h
  refine (List.Sublist.refl before).append ?_
  exact List.Sublist.cons _ ((List.Sublist.refl between).append (List.sublist_cons_self _ after))

theorem Cancels.sublist {l l' : List Operation} (h : Cancels l l') : l'.Sublist l := by
  induction h with
  | refl => exact List.Sublist.refl l
  | tail _ step ih => exact step.sublist.trans ih

theorem Deletion.append_left (front : List Operation) {l l' : List Operation}
    (h : Deletion l l') : Deletion (front ++ l) (front ++ l') := by
  obtain ⟨before, between, after, undoes, free⟩ := h
  simpa only [List.append_assoc] using Deletion.pair (front ++ before) between after undoes free

theorem Deletion.append_right (back : List Operation) {l l' : List Operation}
    (h : Deletion l l') : Deletion (l ++ back) (l' ++ back) := by
  obtain ⟨before, between, after, undoes, free⟩ := h
  simpa only [List.append_assoc, List.cons_append] using
    Deletion.pair before between (after ++ back) undoes free

theorem Cancels.append {a a' b b' : List Operation} (ha : Cancels a a') (hb : Cancels b b') :
    Cancels (a ++ b) (a' ++ b') :=
  (ha.lift (· ++ b) fun _ _ h => h.append_right b).trans
    (hb.lift (a' ++ ·) fun _ _ h => h.append_left a')

/-- The header of a kernel without its variables, and the same of each enabled block in it. -/
inductive Outline where
  | node (header : Header) (blocks : List Outline)

def Header.undeclared (h : Header) : Header := { h with vars := [] }

/-- The outline of a block that is enabled; operations have none. -/
def Instruction.outlines : Instruction → List Outline
  | leaf _ => []
  | block h body => if h.enabled then [.node h.undeclared (outlinesOf body)] else []
where
  outlinesOf : List Instruction → List Outline
    | [] => []
    | i :: rest => i.outlines ++ outlinesOf rest

def Kernel.outline (k : Kernel) : Outline :=
  .node k.header.undeclared (Instruction.outlines.outlinesOf k.body)

/-- What an optimization may make of a kernel. -/
structure Kernel.Reduces (k k' : Kernel) : Prop where
  cancels : Cancels k.operations k'.operations
  kept : k'.operations.Sublist k.operations
  outline : k'.outline = k.outline

theorem Kernel.Reduces.refl (k : Kernel) : k.Reduces k := ⟨.refl, List.Sublist.refl _, rfl⟩

theorem Kernel.Reduces.trans {a b c : Kernel} (h : a.Reduces b) (h' : b.Reduces c) : a.Reduces c :=
  ⟨h.cancels.trans h'.cancels, h'.kept.trans h.kept, h'.outline.trans h.outline⟩

namespace Instruction

/-- Instructions that do not touch some bits have no operation on any of them. -/
theorem free_of_not_touches {i : Instruction} {bits : List ℕ} (h : i.touches bits = false)
    {op : Operation} (hop : op ∈ i.operations) {q : ℕ} (hq : q ∈ op.bits) : q ∉ bits := by
  intro hmem
  have hi : q ∈ i.bits := mem_bits.mpr ⟨op, mem_leaves_of_mem_operations hop, hq⟩
  have := List.any_eq_false.mp h q hi
  simp [hmem] at this

theorem outlinesOf_eq (body : List Instruction) :
    outlines.outlinesOf body = body.flatMap outlines := by
  induction body with
  | nil => rfl
  | cons i rest ih => simp [outlines.outlinesOf, ih]

end Instruction

theorem undoes_of_cancels {a b : Operation} (h : a.cancels b) (hb : b.isSelfInverse) :
    a.Undoes b := by
  simp only [Operation.cancels, Operation.isSelfInverse, Operation.sameBits, Operation.isSymmetric,
    Bool.and_eq_true, beq_iff_eq, List.isEmpty_iff, List.contains_iff_mem] at h hb
  obtain ⟨⟨hname, hempty, hself⟩, hbits⟩ := h
  refine ⟨hname, hself, ⟨hempty, hb.1⟩, ?_⟩
  split at hbits
  · exact .inr ⟨‹_›, List.isPerm_iff.mp hbits⟩
  · exact .inl (by simpa using hbits)

/-- The partner taken out cancels the gate, and nothing after it touches the gate's bits. -/
theorem withoutPartner_eq_some {op : Operation} {kept kept' : List Instruction}
    (h : withoutPartner op kept = some kept') :
    ∃ later p earlier, kept = later ++ .leaf p :: earlier ∧ kept' = later ++ earlier ∧
      p.cancels op ∧ ∀ i ∈ later, i.touches op.bits = false := by
  induction kept generalizing kept' with
  | nil => simp [withoutPartner] at h
  | cons i rest ih =>
    by_cases htouch : i.touches op.bits
    · cases i with
      | block hd body => simp [withoutPartner, htouch] at h
      | leaf p =>
        simp only [withoutPartner, htouch, if_true, Option.ite_none_right_eq_some,
          Option.some.injEq] at h
        obtain ⟨hp, rfl⟩ := h
        exact ⟨[], p, rest, rfl, rfl, hp, by simp⟩
    · have hmap : (withoutPartner op rest).map (i :: ·) = some kept' := by
        cases i <;> simpa [withoutPartner, htouch] using h
      obtain ⟨rest', hrest, rfl⟩ := Option.map_eq_some_iff.mp hmap
      obtain ⟨later, p, earlier, rfl, rfl, hp, hfree⟩ := ih hrest
      refine ⟨i :: later, p, earlier, rfl, rfl, hp, ?_⟩
      intro j hj
      rcases List.mem_cons.mp hj with rfl | hj
      · simpa using htouch
      · exact hfree j hj

namespace Instruction

/-- The operations of instructions that stand latest first. -/
def standing (kept : List Instruction) : List Operation := kept.reverse.flatMap operations

/-- Nothing in these instructions is disabled. -/
def Settled (kept : List Instruction) : Prop := ∀ i ∈ kept, i.leaves = i.operations

theorem standing_append (later earlier : List Instruction) :
    standing (later ++ earlier) = standing earlier ++ standing later := by
  simp [standing]

theorem standing_cons (i : Instruction) (kept : List Instruction) :
    standing (i :: kept) = standing kept ++ i.operations := by
  simp [standing]

theorem Settled.operations_leaf {kept : List Instruction} (h : Settled kept) {op : Operation}
    (hop : leaf op ∈ kept) : (leaf op).operations = [op] := (h _ hop).symm

/-- A gate and its partner leave together. -/
theorem cancels_withoutPartner {op : Operation} {kept kept' : List Instruction}
    (hk : Settled kept) (hself : op.isSelfInverse) (h : withoutPartner op kept = some kept') :
    Settled kept' ∧ Cancels (standing kept ++ [op]) (standing kept') := by
  obtain ⟨later, p, earlier, rfl, rfl, hp, hfree⟩ := withoutPartner_eq_some h
  have hundoes : p.Undoes op := undoes_of_cancels hp hself
  have hleaf : (leaf p).operations = [p] := hk.operations_leaf (by simp)
  refine ⟨fun i hi => hk i ?_, ?_⟩
  · rcases List.mem_append.mp hi with hi | hi <;> simp [hi]
  · have hdel : Deletion (standing earlier ++ (p :: standing later ++ op :: []))
        (standing earlier ++ (standing later ++ [])) := by
      refine .pair _ _ _ hundoes fun o ho q hq => ?_
      obtain ⟨i, hi, hoi⟩ := List.mem_flatMap.mp ho
      have hq' : q ∉ op.bits := free_of_not_touches (hfree i (List.mem_reverse.mp hi)) hoi hq
      refine ⟨?_, hq'⟩
      rcases hundoes.bits with hb | ⟨_, hb⟩
      · rwa [hb]
      · rwa [hb.mem_iff]
    have hall : standing (later ++ leaf p :: earlier) ++ [op] =
        standing earlier ++ (p :: standing later ++ op :: []) := by
      rw [standing_append, standing_cons, hleaf]
      simp
    rw [hall, standing_append]
    simpa using Relation.ReflTransGen.single hdel

/-- What a sweep may make of the instructions kept so far on meeting more operations, which
stand in blocks of these outlines. -/
structure Sweeps (kept : List Instruction) (ops : List Operation) (outlines : List Outline)
    (kept' : List Instruction) : Prop where
  settled : Settled kept'
  cancels : Cancels (standing kept ++ ops) (standing kept')
  outlines : kept'.reverse.flatMap Instruction.outlines =
    kept.reverse.flatMap Instruction.outlines ++ outlines

end Instruction

theorem pushAll_undeclared (k : Kernel) (l : List Instruction) :
    (k.pushAll l).header.undeclared = k.header.undeclared := by
  induction l generalizing k with
  | nil => rfl
  | cons i rest ih =>
    rw [Kernel.pushAll_cons, ih]
    rfl

theorem assemble_undeclared (h : Header) (body : List Instruction) :
    (h.assemble body).header.undeclared = h.undeclared := pushAll_undeclared ⟨h, []⟩ body

theorem assemble_body (h : Header) (body : List Instruction) : (h.assemble body).body = body := by
  simp [Header.assemble, Kernel.pushAll_body]

theorem assemble_enabled (h : Header) (body : List Instruction) :
    (h.assemble body).header.enabled = h.enabled := by
  have he := congrArg Header.enabled (assemble_undeclared h body)
  exact he

namespace Instruction

/-- A sweep over a body does what its steps do, one after another. -/
theorem sweepAll_sweeps (body : List Instruction)
    (step : ∀ i ∈ body, ∀ kept, Settled kept →
      Sweeps kept i.operations i.outlines (sweepInto kept i).1)
    (kept : List Instruction) (hk : Settled kept) :
    Sweeps kept (body.flatMap operations) (body.flatMap outlines)
      (sweepInto.sweepAll kept body).1 := by
  induction body generalizing kept with
  | nil =>
    simp only [List.flatMap_nil, sweepInto.sweepAll]
    exact ⟨hk, by simpa using Relation.ReflTransGen.refl, by simp⟩
  | cons i rest ih =>
    have first := step i (by simp) kept hk
    have others := ih (fun j hj => step j (by simp [hj])) (sweepInto kept i).1 first.settled
    simp only [List.flatMap_cons, sweepInto.sweepAll]
    refine ⟨others.settled, ?_, ?_⟩
    · rw [← List.append_assoc]
      exact (Cancels.append first.cancels .refl).trans others.cancels
    · rw [others.outlines, first.outlines, List.append_assoc]

theorem sweeps_keep {kept : List Instruction} (hk : Settled kept) {i : Instruction}
    (hi : i.leaves = i.operations) {ops : List Operation} (hops : Cancels ops i.operations) :
    Sweeps kept ops i.outlines (i :: kept) := by
  refine ⟨?_, ?_, by simp⟩
  · intro j hj
    rcases List.mem_cons.mp hj with rfl | hj
    · exact hi
    · exact hk j hj
  · rw [standing_cons]
    exact Cancels.append .refl hops

theorem sweeps_drop {kept : List Instruction} (hk : Settled kept) : Sweeps kept [] [] kept :=
  ⟨hk, by simpa using Relation.ReflTransGen.refl, by simp⟩

theorem Settled.leaves_eq {kept : List Instruction} (h : Settled kept) :
    kept.flatMap leaves = kept.flatMap operations := by
  induction kept with
  | nil => rfl
  | cons i rest ih =>
    simp only [List.flatMap_cons]
    rw [h i (by simp), ih fun j hj => h j (by simp [hj])]

theorem withoutPartner_outlines {op : Operation} {kept kept' : List Instruction}
    (h : withoutPartner op kept = some kept') :
    kept'.reverse.flatMap outlines = kept.reverse.flatMap outlines := by
  obtain ⟨later, p, earlier, rfl, rfl, -, -⟩ := withoutPartner_eq_some h
  simp [outlines]

theorem sweepInto_leaf_sweeps (op : Operation) (kept : List Instruction) (hk : Settled kept) :
    Sweeps kept (leaf op).operations (leaf op).outlines (sweepInto kept (leaf op)).1 := by
  by_cases he : op.enabled
  · have hops : (leaf op).operations = [op] := by simp [operations, he]
    have hkeep : Sweeps kept (leaf op).operations (leaf op).outlines (leaf op :: kept) :=
      sweeps_keep hk (by simp [leaves, hops]) .refl
    by_cases hself : op.isSelfInverse
    · cases hp : withoutPartner op kept with
      | none => simpa [sweepInto, he, hself, hp] using hkeep
      | some kept' =>
        obtain ⟨hsettled, hcancels⟩ := cancels_withoutPartner hk hself hp
        have hout := withoutPartner_outlines hp
        have hswept : (sweepInto kept (leaf op)).1 = kept' := by simp [sweepInto, he, hself, hp]
        rw [hswept, hops]
        exact ⟨hsettled, hcancels, by simpa [outlines] using hout⟩
    · simpa [sweepInto, he, hself] using hkeep
  · have hops : (leaf op).operations = [] := by simp [operations, he]
    have hswept : (sweepInto kept (leaf op)).1 = kept := by simp [sweepInto, he]
    rw [hops, hswept]
    exact sweeps_drop hk

theorem sweepInto_sweeps (i : Instruction) (kept : List Instruction) (hk : Settled kept) :
    Sweeps kept i.operations i.outlines (sweepInto kept i).1 := by
  induction i using tree_induction generalizing kept with
  | leaf op => exact sweepInto_leaf_sweeps op kept hk
  | block h body ih =>
    by_cases he : h.enabled
    · -- a block is swept by itself: no gate in it finds a partner outside
      have inner := sweepAll_sweeps body ih [] (by simp [Settled])
      rcases hs : sweepInto.sweepAll [] body with ⟨swept, removed⟩
      rw [hs] at inner
      let k := h.assemble swept.reverse
      have hk' : k.body = swept.reverse := assemble_body h _
      have hen : k.header.enabled = true := (assemble_enabled h _).trans he
      have hops : (ofKernel k).operations = standing swept := by
        simp [ofKernel, operations, hen, operationsOf_eq, hk', standing]
      have hleaves : (ofKernel k).leaves = (ofKernel k).operations := by
        rw [hops]
        simp only [ofKernel, leaves, leavesOf_eq, hk', standing]
        exact Settled.leaves_eq fun j hj => inner.settled j (List.mem_reverse.mp hj)
      have hout : (ofKernel k).outlines = (block h body).outlines := by
        have hbody := inner.outlines
        simp only [List.reverse_nil, List.flatMap_nil, List.nil_append] at hbody
        simp [ofKernel, outlines, hen, he, outlinesOf_eq, hk', hbody, k, assemble_undeclared]
      have hcancels : Cancels (block h body).operations (ofKernel k).operations := by
        rw [hops]
        simpa [operations, he, operationsOf_eq, standing] using inner.cancels
      have hkeep := sweeps_keep hk hleaves hcancels
      rw [hout] at hkeep
      simpa [sweepInto, he, hs] using hkeep
    · simpa [sweepInto, operations, outlines, he] using sweeps_drop hk

end Instruction

namespace Kernel

/-- What a sweep of a whole kernel does to it. -/
theorem sweep_reduces (k : Kernel) : k.Reduces k.sweep.1 ∧ k.sweep.1.leaves = k.sweep.1.operations := by
  have all := Instruction.sweepAll_sweeps k.body (fun i _ => Instruction.sweepInto_sweeps i) []
    (by simp [Instruction.Settled])
  rcases hs : Instruction.sweepInto.sweepAll [] k.body with ⟨swept, removed⟩
  rw [hs] at all
  have hk : k.sweep.1 = k.header.assemble swept.reverse := by simp [sweep, hs]
  have hbody : k.sweep.1.body = swept.reverse := by rw [hk, assemble_body]
  have hops : k.sweep.1.operations = Instruction.standing swept := by
    rw [operations_eq, hbody, Instruction.standing]
  have hcancels : Cancels k.operations k.sweep.1.operations := by
    rw [hops, operations_eq]
    simpa [Instruction.standing] using all.cancels
  refine ⟨⟨hcancels, hcancels.sublist, ?_⟩, ?_⟩
  · have hout := all.outlines
    simp only [List.reverse_nil, List.flatMap_nil, List.nil_append] at hout
    simp [outline, Instruction.outlinesOf_eq, hk, assemble_undeclared, assemble_body, hout]
  · rw [leaves_eq, operations_eq, hbody]
    exact Instruction.Settled.leaves_eq fun i hi => all.settled i (List.mem_reverse.mp hi)

theorem optimize_succ (tries : ℕ) (k : Kernel) :
    k.optimize (tries + 1) = k.sweep.1 ∨ k.optimize (tries + 1) = k.sweep.1.optimize tries := by
  rcases hs : k.sweep with ⟨swept, removed⟩
  rw [optimize, hs]
  dsimp only
  split_ifs
  · exact .inl rfl
  · exact .inr rfl

theorem optimize_reduces (tries : ℕ) (k : Kernel) : k.Reduces (k.optimize tries) := by
  induction tries generalizing k with
  | zero => exact Reduces.refl k
  | succ tries ih =>
    rcases optimize_succ tries k with h | h
    · rw [h]
      exact (sweep_reduces k).1
    · rw [h]
      exact (sweep_reduces k).1.trans (ih k.sweep.1)

/-- After at least one sweep nothing disabled is left. -/
theorem leaves_optimize (tries : ℕ) (k : Kernel) :
    (k.optimize (tries + 1)).leaves = (k.optimize (tries + 1)).operations := by
  induction tries generalizing k with
  | zero => rcases optimize_succ 0 k with h | h <;> rw [h] <;> exact (sweep_reduces k).2
  | succ tries ih =>
    rcases optimize_succ (tries + 1) k with h | h
    · rw [h]
      exact (sweep_reduces k).2
    · rw [h]
      exact ih k.sweep.1

end Kernel

/-- Every optimizer, whatever its limit on sweeps, only deletes pairs of gates that undo each
other from a kernel's operations, drops what is disabled, and keeps the headers and the nesting
of the enabled blocks; a program keeps the number and order of its kernels. -/
theorem optimize_deletes_undone_pairs :
    (∀ (tries : ℕ) (k : Kernel), k.Reduces (k.optimize (tries + 1)) ∧
      (k.optimize (tries + 1)).leaves = (k.optimize (tries + 1)).operations) ∧
    ∀ (o : Optimizer) (p : Program), List.Forall₂ (fun k k' => k.Reduces k' ∧ k'.leaves = k'.operations)
      p.kernels (o.transform p).kernels := by
  have each : ∀ (tries : ℕ) (k : Kernel), k.Reduces (k.optimize (tries + 1)) ∧
      (k.optimize (tries + 1)).leaves = (k.optimize (tries + 1)).operations :=
    fun tries k => ⟨k.optimize_reduces (tries + 1), k.leaves_optimize tries⟩
  refine ⟨each, fun o p => ?_⟩
  obtain ⟨tries, htries⟩ := Nat.exists_eq_add_one.mpr o.tries_pos
  simp only [Optimizer.transform, htries, List.forall₂_map_right_iff]
  exact List.forall₂_same.mpr fun k _ => each tries k

end QuantumKernels
