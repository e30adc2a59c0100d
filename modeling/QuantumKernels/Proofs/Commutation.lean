import QuantumKernels.Proofs.Binding
import QuantumKernels.Proofs.NormalForm

/-!
# What cancellation commutes with

A sweep sees the names of operations, whether they have parameters, and which bits they share.
Changes of a tree that keep all this pass through a sweep unnoticed: swept first and changed then,
a kernel comes out as it does changed first and swept then. Binding variables is such a change, and
so is a relabelling that keeps bits apart.
-/
namespace QuantumKernels

/-- Two operations that have a bit in common. -/
def Operation.Meets (a b : Operation) : Prop := ∃ q ∈ a.bits, q ∈ b.bits

/-- Changes of headers and of operations that no sweep notices; `g` is what they make of variables. -/
structure Unnoticed (f : Header → Header) (g : List String → List String)
    (R : Operation → Operation → Prop) : Prop where
  header_enabled : ∀ h, (f h).enabled = h.enabled
  header_vars : ∀ h, (f h).vars = g h.vars
  declare : ∀ h names, (f h).declare (g names) = f (h.declare names)
  enabled : ∀ {op op'}, R op op' → op'.enabled = op.enabled
  vars : ∀ {op op'}, R op op' → op'.vars = g op.vars
  isSelfInverse : ∀ {op op'}, R op op' → op'.isSelfInverse = op.isSelfInverse
  cancels : ∀ {a a' b b'}, R a a' → R b b' → a'.cancels b' = a.cancels b
  meets : ∀ {a a' b b'}, R a a' → R b b' → (a'.Meets b' ↔ a.Meets b)

namespace Instruction

variable {f : Header → Header} {g : List String → List String} {R S : Operation → Operation → Prop}

theorem touches_iff_meets {i : Instruction} {op : Operation} :
    i.touches op.bits = true ↔ ∃ o ∈ i.leaves, o.Meets op := by
  rw [touches_iff]
  constructor
  · rintro ⟨q, hq, hop⟩
    obtain ⟨o, ho, hqo⟩ := mem_bits.mp hq
    exact ⟨o, ho, q, hqo, hop⟩
  · rintro ⟨o, ho, q, hqo, hop⟩
    exact ⟨q, mem_bits.mpr ⟨o, ho, hqo⟩, hop⟩

/-- Trees of one shape have related leaves at the same places. -/
theorem Alike.leaves {i i' : Instruction} (h : i.Alike f R i') : List.Forall₂ R i.leaves i'.leaves := by
  induction i using tree_induction generalizing i' with
  | leaf op =>
    obtain ⟨hop⟩ := h
    exact .cons hop .nil
  | block hd body ih =>
    obtain _ | ⟨hinside⟩ := h
    rw [Instruction.leaves, Instruction.leaves, leavesOf_eq, leavesOf_eq]
    exact List.rel_flatMap (forall₂_with_mem hinside) fun i _ hi => ih i hi.1 hi.2

/-- The relation between leaves may be exchanged for one that holds of the leaves there are. -/
theorem Alike.imp {i i' : Instruction} (h : i.Alike f R i')
    (hRS : ∀ op ∈ i.leaves, ∀ op', R op op' → S op op') : i.Alike f S i' := by
  induction i using tree_induction generalizing i' with
  | leaf op =>
    obtain ⟨hop⟩ := h
    exact .leaf (hRS op (by simp [Instruction.leaves]) _ hop)
  | block hd body ih =>
    obtain _ | ⟨hinside⟩ := h
    refine .block ((forall₂_with_mem hinside).imp fun i _ hi => ?_)
    exact ih i hi.1 hi.2 fun op hop => hRS op (mem_leaves_block.mpr ⟨i, hi.1, hop⟩)

/-- Where an operation is related to one at most, a tree is alike to one at most. -/
theorem Alike.unique (hR : Relator.RightUnique R) {i a b : Instruction} (ha : i.Alike f R a)
    (hb : i.Alike f R b) : a = b := by
  induction i using tree_induction generalizing a b with
  | leaf op =>
    obtain ⟨ha⟩ := ha
    obtain ⟨hb⟩ := hb
    rw [hR ha hb]
  | block hd body ih =>
    obtain _ | ⟨ha⟩ := ha
    obtain _ | ⟨hb⟩ := hb
    have hunique : Relator.RightUnique fun i j => i ∈ body ∧ Alike f R i j :=
      fun i _ _ ha hb => ih i ha.1 ha.2 hb.2
    rw [hunique.forall₂ (forall₂_with_mem ha) (forall₂_with_mem hb)]

/-- Two outcomes of sweeps: instructions alike are kept, and equally many have disappeared. -/
def SweptAlike (f : Header → Header) (R : Operation → Operation → Prop)
    (swept swept' : List Instruction × ℕ) : Prop :=
  List.Forall₂ (Alike f R) swept.1 swept'.1 ∧ swept'.2 = swept.2

theorem alike_sweepAll {body body' : List Instruction} (hbody : List.Forall₂ (Alike f R) body body')
    (step : ∀ i ∈ body, ∀ {i'}, i.Alike f R i' → ∀ {kept kept'}, List.Forall₂ (Alike f R) kept kept' →
      SweptAlike f R (sweepInto kept i) (sweepInto kept' i'))
    {kept kept' : List Instruction} (hk : List.Forall₂ (Alike f R) kept kept') :
    SweptAlike f R (sweepInto.sweepAll kept body) (sweepInto.sweepAll kept' body') := by
  induction hbody generalizing kept kept' with
  | nil => exact ⟨hk, rfl⟩
  | @cons i i' rest rest' hi _ ih =>
    obtain ⟨hfirst, hcount⟩ := step i (by simp) hi hk
    obtain ⟨hrest, hcounts⟩ := ih (fun j hj => step j (by simp [hj])) hfirst
    exact ⟨hrest, congrArg₂ (· + ·) hcount hcounts⟩

section

variable (hu : Unnoticed f g R)
include hu

theorem Alike.declared {i i' : Instruction} (h : i.Alike f R i') : i'.declared = g i.declared := by
  cases h with
  | leaf hop => exact hu.vars hop
  | block => exact hu.header_vars _

theorem Alike.touches {i i' : Instruction} (h : i.Alike f R i') {op op' : Operation} (hop : R op op') :
    i'.touches op'.bits = i.touches op.bits := by
  rw [Bool.eq_iff_iff, touches_iff_meets, touches_iff_meets]
  constructor
  · rintro ⟨o', ho', hmeets⟩
    obtain ⟨o, ho, hoo'⟩ := exists_mem_of_forall₂ h.leaves ho'
    exact ⟨o, ho, (hu.meets hoo' hop).mp hmeets⟩
  · rintro ⟨o, ho, hmeets⟩
    obtain ⟨o', ho', hoo'⟩ := exists_mem_of_forall₂ h.leaves.flip ho
    exact ⟨o', ho', (hu.meets hoo' hop).mpr hmeets⟩

/-- A changed gate has a partner exactly if the gate had one, and the others are left. -/
theorem rel_withoutPartner {op op' : Operation} (hop : R op op') {kept kept' : List Instruction}
    (hk : List.Forall₂ (Alike f R) kept kept') : Option.Rel (List.Forall₂ (Alike f R))
      (withoutPartner op kept) (withoutPartner op' kept') := by
  induction hk with
  | nil => exact .none
  | @cons i i' rest rest' hi hrest ih =>
    have htouches := hi.touches hu hop
    by_cases htouch : i.touches op.bits = true
    · cases hi with
      | block => simp only [withoutPartner, htouches, htouch, if_true, Option.Rel.none]
      | @leaf p p' hp =>
        simp only [withoutPartner, htouches, htouch, if_true, hu.cancels hp hop]
        split
        · exact .some hrest
        · exact .none
    · have hskip : ∀ j ∈ [i], j.touches op.bits = false := by simpa using htouch
      have hskip' : ∀ j ∈ [i'], j.touches op'.bits = false := by simpa [htouches] using htouch
      rw [← List.singleton_append, withoutPartner_of_free hskip, ← List.singleton_append (l := rest'),
        withoutPartner_of_free hskip']
      generalize withoutPartner op rest = left at ih ⊢
      generalize withoutPartner op' rest' = left' at ih ⊢
      cases ih with
      | none => exact .none
      | some hsome => exact .some (.cons hi hsome)

theorem alike_pushAll {h : Header} {before before' body body' : List Instruction}
    (hbefore : List.Forall₂ (Alike f R) before before') (hbody : List.Forall₂ (Alike f R) body body') :
    (ofKernel (Kernel.pushAll ⟨h, before⟩ body)).Alike f R
      (ofKernel (Kernel.pushAll ⟨f h, before'⟩ body')) := by
  induction hbody generalizing h before before' with
  | nil => exact .block hbefore
  | @cons i i' rest rest' hi _ ih =>
    have hdeclare : (f h).declare i'.declared = f (h.declare i.declared) := by
      rw [hi.declared hu, hu.declare]
    rw [Kernel.pushAll_cons, Kernel.pushAll_cons, Kernel.push, Kernel.push, hdeclare]
    exact ih (List.rel_append hbefore (.cons hi .nil))

theorem alike_sweepInto {i i' : Instruction} (h : i.Alike f R i') {kept kept' : List Instruction}
    (hk : List.Forall₂ (Alike f R) kept kept') :
    SweptAlike f R (sweepInto kept i) (sweepInto kept' i') := by
  induction i using tree_induction generalizing i' kept kept' with
  | leaf op =>
    obtain @⟨_, op', hop⟩ := h
    have hpartner : Option.Rel (List.Forall₂ (Alike f R))
        (if op.isSelfInverse then withoutPartner op kept else none)
        (if op'.isSelfInverse then withoutPartner op' kept' else none) := by
      rw [hu.isSelfInverse hop]
      split
      · exact rel_withoutPartner hu hop hk
      · exact .none
    rw [sweepInto, sweepInto, hu.enabled hop]
    split
    · generalize (if op.isSelfInverse then withoutPartner op kept else none) = left at hpartner ⊢
      generalize (if op'.isSelfInverse then withoutPartner op' kept' else none) = left' at hpartner ⊢
      cases hpartner with
      | none => exact ⟨.cons (.leaf hop) hk, rfl⟩
      | some hleft => exact ⟨hleft, rfl⟩
    · exact ⟨hk, rfl⟩
  | block hd body ih =>
    obtain _ | @⟨_, _, body', hinside⟩ := h
    obtain ⟨hinner, hcount⟩ := alike_sweepAll hinside ih .nil
    rw [sweepInto, sweepInto, hu.header_enabled]
    split
    · exact ⟨.cons (alike_pushAll hu .nil (List.rel_reverse hinner)) hk, hcount⟩
    · exact ⟨hk, rfl⟩

end

end Instruction

namespace Kernel

variable {f : Header → Header} {g : List String → List String} {R : Operation → Operation → Prop}

theorem alike_sweep (hu : Unnoticed f g R) {k k' : Kernel}
    (h : (Instruction.ofKernel k).Alike f R (Instruction.ofKernel k')) :
    (Instruction.ofKernel k.sweep.1).Alike f R (Instruction.ofKernel k'.sweep.1) ∧
      k'.sweep.2 = k.sweep.2 := by
  obtain ⟨hd, body⟩ := k
  obtain ⟨hd', body'⟩ := k'
  obtain _ | ⟨hinside⟩ := h
  obtain ⟨hkept, hcount⟩ := Instruction.alike_sweepAll hinside
    (fun _ _ _ hi _ _ hk => Instruction.alike_sweepInto hu hi hk) .nil
  exact ⟨Instruction.alike_pushAll hu .nil (List.rel_reverse hkept), hcount⟩

/-- What a change that no sweep notices makes of an optimized kernel. -/
theorem alike_optimize (hu : Unnoticed f g R) (tries : ℕ) {k k' : Kernel}
    (h : (Instruction.ofKernel k).Alike f R (Instruction.ofKernel k')) :
    (Instruction.ofKernel (k.optimize tries)).Alike f R (Instruction.ofKernel (k'.optimize tries)) := by
  induction tries generalizing k k' with
  | zero => exact h
  | succ tries ih =>
    obtain ⟨hswept, hcount⟩ := alike_sweep hu h
    have hstep : ∀ k : Kernel, k.optimize (tries + 1) =
        if k.sweep.2 = 0 then k.sweep.1 else k.sweep.1.optimize tries := fun _ => rfl
    rw [hstep, hstep, hcount]
    split
    · exact hswept
    · exact ih hswept

end Kernel

namespace Instruction

/-- Instructions that may stand in a block which declares these variables. -/
def Within (vars : List String) (body : List Instruction) : Prop :=
  ∀ i ∈ body, i.Scoped ∧ i.declared ⊆ vars

theorem sweepInto_leaf_subset (op : Operation) (kept : List Instruction) :
    (sweepInto kept (leaf op)).1 ⊆ leaf op :: kept := by
  rw [sweepInto]
  split
  · split
    · rename_i kept' hpartner
      obtain ⟨later, p, earlier, rfl, rfl, -, -⟩ :=
        withoutPartner_eq_some (Option.ite_none_right_eq_some.mp hpartner).2
      intro i hi
      rcases List.mem_append.mp hi with hi | hi <;> simp [hi]
    · exact List.Subset.refl _
  · exact List.subset_cons_self _ _

/-- Instructions that declare nothing new leave the block they are put together in as it was. -/
theorem Within.assemble {h : Header} (hnodup : h.vars.Nodup) {kept : List Instruction}
    (hk : Within h.vars kept) :
    h.assemble kept.reverse = ⟨h, kept.reverse⟩ ∧ (block h kept.reverse).Scoped := by
  have hbody : ∀ i ∈ kept.reverse, i.Scoped ∧ i.declared ⊆ h.vars := fun i hi => hk i (List.mem_reverse.mp hi)
  exact ⟨pushAll_of_declared h [] fun i hi => (hbody i hi).2,
    .block hnodup (fun i hi => (hbody i hi).2) fun i hi => (hbody i hi).1⟩

theorem within_sweepInto {i : Instruction} (hi : i.Scoped) {vars : List String} (hvars : i.declared ⊆ vars)
    {kept : List Instruction} (hk : Within vars kept) : Within vars (sweepInto kept i).1 := by
  induction i using tree_induction generalizing vars kept with
  | leaf op =>
    intro j hj
    rcases List.mem_cons.mp (sweepInto_leaf_subset op kept hj) with rfl | hj
    · exact ⟨hi, hvars⟩
    · exact hk j hj
  | block h body ih =>
    obtain ⟨hnodup, hdeclared, hinside⟩ := scoped_block.mp hi
    have hinner : Within h.vars (sweepInto.sweepAll [] body).1 :=
      sweepAll_preserves (fun j hj _ => ih j hj (hinside j hj) (hdeclared j hj)) (by simp [Within])
    obtain ⟨hassemble, hscoped⟩ := hinner.assemble hnodup
    rw [sweepInto]
    split
    · intro j hj
      rcases List.mem_cons.mp hj with rfl | hj
      · rw [hassemble]
        exact ⟨hscoped, hvars⟩
      · exact hk j hj
    · exact hk

end Instruction

namespace Kernel

/-- A sweep leaves the header of a scoped kernel alone. -/
theorem Scoped.sweep {k : Kernel} (hk : k.Scoped) : k.sweep.1.Scoped ∧ k.sweep.1.header = k.header := by
  obtain ⟨hnodup, hdeclared, hinside⟩ := Instruction.scoped_block.mp hk
  have hkept : Instruction.Within k.header.vars (Instruction.sweepInto.sweepAll [] k.body).1 :=
    Instruction.sweepAll_preserves
      (fun i hi _ => Instruction.within_sweepInto (hinside i hi) (hdeclared i hi))
      (by simp [Instruction.Within])
  obtain ⟨hassemble, hscoped⟩ := hkept.assemble hnodup
  have hswept : k.sweep.1 = ⟨k.header, _⟩ := hassemble
  rw [hswept]
  exact ⟨hscoped, rfl⟩

theorem Scoped.optimize {k : Kernel} (hk : k.Scoped) (tries : ℕ) :
    (k.optimize tries).Scoped ∧ (k.optimize tries).header = k.header := by
  induction tries generalizing k with
  | zero => exact ⟨hk, rfl⟩
  | succ tries ih =>
    obtain ⟨hscoped, hheader⟩ := hk.sweep
    rcases optimize_succ tries k with h | h <;> rw [h]
    · exact ⟨hscoped, hheader⟩
    · obtain ⟨hoptimized, hsame⟩ := ih hscoped
      exact ⟨hoptimized, hsame.trans hheader⟩

theorem leaves_optimize_subset (tries : ℕ) (k : Kernel) : (k.optimize tries).leaves ⊆ k.leaves := by
  cases tries with
  | zero => exact List.Subset.refl _
  | succ tries =>
    intro op hop
    rw [leaves_optimize] at hop
    exact mem_leaves_of_mem_operations ((k.optimize_reduces (tries + 1)).kept.subset hop)

end Kernel

theorem Parameter.rightUnique_boundBy (ρ : String → Float) : Relator.RightUnique (Parameter.BoundBy ρ) := by
  rintro p a b (⟨hfree, hreads⟩ | hclosed) hb
  · obtain ⟨-, hreads'⟩ | hclosed := hb
    · rw [Except.ok.inj (hreads.symm.trans hreads')]
    · simp [hfree] at hclosed
  · obtain ⟨hfree, -⟩ | - := hb
    · simp [hfree] at hclosed
    · rfl

theorem Operation.rightUnique_boundBy (ρ : String → Float) : Relator.RightUnique (Operation.BoundBy ρ) := by
  intro op a b ha hb
  rw [ha.rest, hb.rest, (Parameter.rightUnique_boundBy ρ).forall₂ ha.parameters hb.parameters]

/-- A sweep asks only whether an operation has parameters, and binding keeps their number. -/
theorem unnoticed_binding (ρ : String → Float) :
    Unnoticed (fun h => { h with vars := [] }) (fun _ => []) (Operation.BoundBy ρ) := by
  have hself : ∀ {op op'}, Operation.BoundBy ρ op op' → op'.isSelfInverse = op.isSelfInverse := by
    intro op op' h
    have hempty : op'.parameters.isEmpty = op.parameters.isEmpty := by
      rw [Bool.eq_iff_iff, List.isEmpty_iff_length_eq_zero, List.isEmpty_iff_length_eq_zero,
        h.parameters.length_eq]
    rw [Operation.isSelfInverse, hempty, h.rest, Operation.isSelfInverse]
  refine ⟨fun _ => rfl, fun _ => rfl, fun _ _ => rfl, fun h => ?_, fun h => h.vars_eq_nil, hself, ?_, ?_⟩
  · rw [h.rest]
  · intro a a' b b' ha hb
    rw [Operation.cancels, hself ha, ha.rest, hb.rest]
    rfl
  · intro a a' b b' ha hb
    rw [Operation.Meets, Operation.Meets, ha.rest, hb.rest]

/-- A map takes one bit, of those in `s`, to the other. -/
def Moves (map : List ℕ) (s : Set ℕ) (b b' : ℕ) : Prop := b ∈ s ∧ map[b]? = some b'

theorem biUnique_moves {map : List ℕ} {s : Set ℕ} (hmap : s.InjOn fun b => map[b]?) :
    Relator.BiUnique (Moves map s) := by
  refine ⟨?_, ?_⟩
  · rintro a b c ⟨ha, hac⟩ ⟨hb, hbc⟩
    exact hmap ha hb (hac.trans hbc.symm)
  · rintro a b c ⟨-, hab⟩ ⟨-, hac⟩
    exact Option.some.inj (hab.symm.trans hac)

namespace Operation

variable {map : List ℕ} {s : Set ℕ}

theorem rightUnique_relabelledBy (map : List ℕ) : Relator.RightUnique (Operation.RelabelledBy map) := by
  intro op a b ha hb
  have hbits : a.bits = b.bits :=
    List.map_injective_iff.mpr (Option.some_injective ℕ) (ha.bits.trans hb.bits.symm)
  rw [ha.rest, hb.rest, hbits]

theorem RelabelledBy.moves {op op' : Operation} (h : op.RelabelledBy map op') (hs : ∀ b ∈ op.bits, b ∈ s) :
    List.Forall₂ (Moves map s) op.bits op'.bits := by
  have hbits := map_eq_map_iff_forall₂.mp h.bits.symm
  exact (List.forall₂_and_left _ _).mpr ⟨hs, hbits⟩

end Operation

theorem unnoticed_relabelling {map : List ℕ} {s : Set ℕ} (hmap : s.InjOn fun b => map[b]?) :
    Unnoticed (fun h => { h with bitMap := map }) id
      (fun op op' => op.RelabelledBy map op' ∧ ∀ b ∈ op.bits, b ∈ s) := by
  have hunique := biUnique_moves hmap
  refine ⟨fun _ => rfl, fun _ => rfl, fun _ _ => rfl, ?_, ?_, ?_, ?_, ?_⟩
  · rintro op op' ⟨h, -⟩
    rw [h.rest]
  · rintro op op' ⟨h, -⟩
    rw [h.rest]
    rfl
  · rintro op op' ⟨h, -⟩
    rw [h.rest]
    rfl
  · rintro a a' b b' ⟨ha, hsa⟩ ⟨hb, hsb⟩
    have hsame : (a'.bits == b'.bits) = (a.bits == b.bits) := by
      rw [Bool.eq_iff_iff, beq_iff_eq, beq_iff_eq]
      exact (Relator.rel_eq hunique.forall₂ (ha.moves hsa) (hb.moves hsb)).symm
    have hperm : a'.bits.isPerm b'.bits = a.bits.isPerm b.bits := by
      rw [Bool.eq_iff_iff, List.isPerm_iff, List.isPerm_iff]
      exact (List.rel_perm hunique (ha.moves hsa) (hb.moves hsb)).symm
    rw [Operation.cancels, Operation.sameBits, hsame, hperm, ha.rest, hb.rest]
    rfl
  · rintro a a' b b' ⟨ha, hsa⟩ ⟨hb, hsb⟩
    constructor
    · rintro ⟨q', hqa, hqb⟩
      obtain ⟨q, hq, hmoves⟩ := exists_mem_of_forall₂ (ha.moves hsa) hqa
      exact ⟨q, hq, (List.rel_mem hunique hmoves (hb.moves hsb)).mpr hqb⟩
    · rintro ⟨q, hqa, hqb⟩
      obtain ⟨q', hq', hmoves⟩ := exists_mem_of_forall₂ (ha.moves hsa).flip hqa
      exact ⟨q', hq', (List.rel_mem hunique hmoves (hb.moves hsb)).mp hqb⟩

theorem Instruction.ofKernel_injective : Function.Injective ofKernel := by
  rintro ⟨h, body⟩ ⟨h', body'⟩ heq
  cases heq
  rfl

namespace Kernel

/-- What binding makes of an optimized kernel is the optimization of the bound one. -/
theorem Scoped.evaluate_optimize {k : Kernel} (hk : k.Scoped) (tries : ℕ) {values : List Float}
    (hlen : values.length = k.header.vars.length) : ∃ k', k.evaluate values = .ok k' ∧
      (k.optimize tries).evaluate values = .ok (k'.optimize tries) := by
  obtain ⟨hscoped, hheader⟩ := hk.optimize tries
  have hassignment : (k.optimize tries).assignment values = k.assignment values := by
    funext name
    rw [assignment, assignment, hheader]
  obtain ⟨k', hk', halike⟩ := hk.exists_evaluate hlen
  obtain ⟨bound, hbound, hafter⟩ := hscoped.exists_evaluate (hheader ▸ hlen)
  rw [hassignment] at hafter
  have hbefore := alike_optimize (unnoticed_binding _) tries halike
  have hsame := Instruction.Alike.unique (Operation.rightUnique_boundBy _) hafter hbefore
  rw [Instruction.ofKernel_injective hsame] at hbound
  exact ⟨k', hk', hbound⟩

theorem exists_mapBits {k : Kernel} (hkind : k.header.kind = .gate) {map : List ℕ}
    (hcovers : ∀ op ∈ k.leaves, ∀ b ∈ op.bits, b < map.length) : ∃ k', k.mapBits map = .ok k' := by
  have hwidth : k.width ≤ map.length := by
    refine widthOf_le fun b hb => ?_
    obtain ⟨op, hop, hb⟩ := List.mem_flatMap.mp hb
    exact hcovers op hop b hb
  simp [mapBits, hkind, width_le_iff.mp hwidth]

/-- What a map makes of an optimized kernel is the optimization of the relabelled one, if the map
keeps the bits of the kernel apart. -/
theorem Scoped.mapBits_optimize {k : Kernel} (hk : k.Scoped) (tries : ℕ) (hkind : k.header.kind = .gate)
    {map : List ℕ} {s : Set ℕ} (hmap : s.InjOn fun b => map[b]?)
    (hcovers : ∀ op ∈ k.leaves, ∀ b ∈ op.bits, b < map.length) (hs : ∀ op ∈ k.leaves, ∀ b ∈ op.bits, b ∈ s) :
    ∃ k', k.mapBits map = .ok k' ∧ (k.optimize tries).mapBits map = .ok (k'.optimize tries) := by
  obtain ⟨-, hheader⟩ := hk.optimize tries
  obtain ⟨k', hk'⟩ := exists_mapBits hkind hcovers
  obtain ⟨relabelled, hrelabelled⟩ := exists_mapBits (k := k.optimize tries) (hheader ▸ hkind)
    fun op hop => hcovers op (leaves_optimize_subset tries k hop)
  have halike := (alike_mapBits hk').imp fun op hop op' h => And.intro h (hs op hop)
  have hbefore := (alike_optimize (unnoticed_relabelling hmap) tries halike).imp fun _ _ _ h => h.1
  have hsame := Instruction.Alike.unique (Operation.rightUnique_relabelledBy map)
    (alike_mapBits hrelabelled) hbefore
  rw [Instruction.ofKernel_injective hsame] at hrelabelled
  exact ⟨k', hk', hrelabelled⟩

end Kernel

/-- Optimization keeps the declared variables of a kernel, and it makes no difference whether a kernel
is optimized before or after its variables are bound, or its bits are relabelled by a map that
covers them and keeps them apart. -/
theorem optimize_commutes_with_evaluate_and_mapBits (k : Kernel) (hk : k.Built) (tries : ℕ) :
    (k.optimize tries).header.vars = k.header.vars ∧
    (∀ values : List Float, values.length = k.header.vars.length → ∃ k', k.evaluate values = .ok k' ∧
      (k.optimize tries).evaluate values = .ok (k'.optimize tries)) ∧
    ∀ map : List ℕ, k.header.kind = .gate → (∀ b ∈ k.bits, b < map.length) →
      (∀ a ∈ k.bits, ∀ b ∈ k.bits, map[a]? = map[b]? → a = b) →
      ∃ k', k.mapBits map = .ok k' ∧ (k.optimize tries).mapBits map = .ok (k'.optimize tries) := by
  have hscoped : k.Scoped := hk.scoped
  have hbits : ∀ op ∈ k.leaves, ∀ b ∈ op.bits, b ∈ k.bits := fun op hop b hb =>
    (Instruction.mem_bits (i := .ofKernel k)).mpr ⟨op, hop, hb⟩
  refine ⟨congrArg Header.vars (hscoped.optimize tries).2, fun values hlen => ?_, ?_⟩
  · exact hscoped.evaluate_optimize tries hlen
  · intro map hkind hcovers hmap
    have hapart : Set.InjOn (fun b => map[b]?) {b | b ∈ k.bits} := fun a ha b hb => hmap a ha b hb
    exact hscoped.mapBits_optimize tries hkind hapart (fun op hop b hb => hcovers b (hbits op hop b hb)) hbits

def rotatedBlock : Kernel :=
  (((Kernel.named "inner").push (.leaf { name := "CZ", bits := [1, 2] })).push
    (.leaf { name := "CZ", bits := [2, 1] })).push
    (.leaf { name := "Rz", bits := [1], parameters := [.text "-theta"] })

/-- Two pairs that undo each other, one around a block and one inside it. -/
def rotatedKernel : Kernel :=
  (((Kernel.named "outer").push (.leaf { name := "H", bits := [0] })).push (.ofKernel rotatedBlock)).push
    (.leaf { name := "H", bits := [0] })

theorem rotatedKernel_vars : rotatedKernel.header.vars = ["theta"] := by
  have hreserved : Parameter.isReserved (Text.trim "-theta") = false := by decide
  have hformula : (Parameter.text "-theta").vars = ["theta"] := by
    rw [Parameter.vars, if_neg (by simp [hreserved])]
    cbv
  simp [rotatedKernel, rotatedBlock, Kernel.push, Kernel.named, Header.declare, Formula.addNames,
    Instruction.declared, Instruction.ofKernel, Operation.vars, hformula]

example : (rotatedKernel.optimize 3).leaves.map Operation.name = ["Rz"] := by decide

theorem optimize_commutes_with_evaluate_and_mapBits_rotatedKernel :
    rotatedKernel.Built ∧
    (∃ k', rotatedKernel.evaluate [0.5] = .ok k' ∧
      (rotatedKernel.optimize 3).evaluate [0.5] = .ok (k'.optimize 3)) ∧
    ∃ k', rotatedKernel.mapBits [4, 6, 5] = .ok k' ∧
      (rotatedKernel.optimize 3).mapBits [4, 6, 5] = .ok (k'.optimize 3) := by
  have hinner : rotatedBlock.Built :=
    .push (.push (.push (.named _ _) (.operation _)) (.operation _)) (.operation _)
  have hbuilt : rotatedKernel.Built :=
    .push (.push (.push (.named _ _) (.operation _)) hinner) (.operation _)
  have hbits : rotatedKernel.bits = [0, 1, 2] := rfl
  obtain ⟨-, hbind, hrelabel⟩ :=
    optimize_commutes_with_evaluate_and_mapBits rotatedKernel hbuilt 3
  refine ⟨hbuilt, hbind [0.5] (by rw [rotatedKernel_vars]; rfl), hrelabel [4, 6, 5] rfl ?_ ?_⟩
  · rw [hbits]
    decide
  · rw [hbits]
    decide

end QuantumKernels
