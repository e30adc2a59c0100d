import QuantumKernels.Proofs.Cancellation
import QuantumKernels.Proofs.Scope

/-!
# Swept kernels are in normal form

In a swept kernel nothing is disabled, every block declares the variables its instructions bring,
and any two gates of one body that undo each other are kept apart by an instruction between them.
A kernel is left alone by a sweep exactly if it is in this form. One sweep reaches it, so the limit
on the number of sweeps never shows.
-/
namespace QuantumKernels

/-- Between any two gates of a body that undo each other, some instruction uses one of their bits. -/
def Apart (body : List Instruction) : Prop :=
  ∀ (before between after : List Instruction) (a b : Operation),
    body = before ++ .leaf a :: (between ++ .leaf b :: after) → a.Undoes b → a.bits ≠ [] →
    ∃ i ∈ between, ∃ q ∈ i.bits, q ∈ a.bits

namespace Instruction

inductive Normal : Instruction → Prop
  | leaf {op : Operation} (enabled : op.enabled = true) : Normal (leaf op)
  | block {h : Header} {body : List Instruction} (enabled : h.enabled = true)
      (declared : ∀ i ∈ body, i.declared ⊆ h.vars) (apart : Apart body)
      (inside : ∀ i ∈ body, Normal i) : Normal (block h body)

end Instruction

/-- The normal form of a kernel, which as a whole may be disabled. -/
structure Kernel.Normal (k : Kernel) : Prop where
  declared : ∀ i ∈ k.body, i.declared ⊆ k.header.vars
  apart : Apart k.body
  inside : ∀ i ∈ k.body, i.Normal

theorem Operation.Undoes.mem_bits_iff {a b : Operation} (h : a.Undoes b) {q : ℕ} :
    q ∈ a.bits ↔ q ∈ b.bits := by
  rcases h.bits with heq | ⟨-, hperm⟩
  · rw [heq]
  · exact hperm.mem_iff

theorem Operation.Undoes.cancels {a b : Operation} (h : a.Undoes b) : a.cancels b ∧ b.isSelfInverse := by
  obtain ⟨hname, hself, ⟨ha, hb⟩, hbits⟩ := h
  have hsame : a.sameBits b := by
    rcases hbits with heq | ⟨hsym, hperm⟩
    · simp [Operation.sameBits, heq, List.isPerm_iff]
    · have hsymmetric : a.isSymmetric = true := List.contains_iff_mem.mpr hsym
      rw [Operation.sameBits, if_pos hsymmetric]
      exact List.isPerm_iff.mpr hperm
  have hselfA : a.isSelfInverse := by
    simpa [Operation.isSelfInverse, ha] using hself
  have hselfB : b.isSelfInverse := by
    simpa [Operation.isSelfInverse, hb, ← hname] using hself
  exact ⟨by simp [Operation.cancels, hname, hselfA, hsame], hselfB⟩

namespace Instruction

theorem touches_iff {i : Instruction} {bits : List ℕ} :
    i.touches bits = true ↔ ∃ q ∈ i.bits, q ∈ bits := by
  simp [touches]

end Instruction

/-- Instructions that do not touch a gate play no part in the search for its partner. -/
theorem withoutPartner_skip {op : Operation} {i : Instruction} (hi : i.touches op.bits = false)
    (later earlier : List Instruction) :
    withoutPartner op (later ++ i :: earlier) = none ↔ withoutPartner op (later ++ earlier) = none := by
  induction later with
  | nil => cases i <;> simp [withoutPartner, hi]
  | cons j rest ih =>
    rw [List.cons_append, List.cons_append]
    by_cases hj : j.touches op.bits
    · cases j <;> simp [withoutPartner, hj]
    · cases j <;> simpa [withoutPartner, hj] using ih

theorem withoutPartner_of_free {op : Operation} {later : List Instruction}
    (hfree : ∀ i ∈ later, i.touches op.bits = false) (kept : List Instruction) :
    withoutPartner op (later ++ kept) = (withoutPartner op kept).map (later ++ ·) := by
  induction later with
  | nil => simp
  | cons j rest ih =>
    have hj := hfree j (by simp)
    have hrest := ih fun i hi => hfree i (by simp [hi])
    have hstep : withoutPartner op (j :: (rest ++ kept)) =
        (withoutPartner op (rest ++ kept)).map (j :: ·) := by
      cases j <;> simp [withoutPartner, hj]
    rw [List.cons_append, hstep, hrest]
    simp [Function.comp_def]

theorem withoutPartner_of_no_bits {op : Operation} (h : op.bits = []) (kept : List Instruction) :
    withoutPartner op kept = none := by
  have hfree : ∀ i ∈ kept, i.touches op.bits = false := by
    intro i _
    simp [Instruction.touches, h]
  simpa [withoutPartner] using withoutPartner_of_free hfree []

/-- A gate has no partner exactly if it is kept apart from every gate that undoes it. -/
theorem withoutPartner_eq_none_iff {op : Operation} (hself : op.isSelfInverse) {kept : List Instruction} :
    withoutPartner op kept = none ↔
      ∀ later p earlier, kept = later ++ .leaf p :: earlier → p.Undoes op → p.bits ≠ [] →
        ∃ i ∈ later, ∃ q ∈ i.bits, q ∈ p.bits := by
  constructor
  · rintro hnone later p earlier rfl hundoes hne
    by_contra hclear
    have hfree : ∀ i ∈ later, i.touches op.bits = false := by
      intro i hi
      rw [Bool.eq_false_iff, ne_eq, Instruction.touches_iff]
      rintro ⟨q, hq, hqop⟩
      exact hclear ⟨i, hi, q, hq, hundoes.mem_bits_iff.mpr hqop⟩
    obtain ⟨q, hq⟩ := List.exists_mem_of_ne_nil _ hne
    have htouch : (Instruction.leaf p).touches op.bits = true :=
      Instruction.touches_iff.mpr ⟨q, hq, hundoes.mem_bits_iff.mp hq⟩
    rw [withoutPartner_of_free hfree, withoutPartner, if_pos htouch, if_pos hundoes.cancels.1] at hnone
    cases hnone
  · intro hapart
    cases hp : withoutPartner op kept with
    | none => rfl
    | some kept' =>
      obtain ⟨later, p, earlier, hkept, -, hcancels, hfree⟩ := withoutPartner_eq_some hp
      have hundoes := undoes_of_cancels hcancels hself
      have hne : p.bits ≠ [] := by
        intro hnil
        have hop : op.bits = [] := by
          refine List.eq_nil_iff_forall_not_mem.mpr fun q hq => ?_
          have := hundoes.mem_bits_iff.mpr hq
          simp [hnil] at this
        rw [withoutPartner_of_no_bits hop] at hp
        cases hp
      obtain ⟨i, hi, q, hq, hqp⟩ := hapart later p earlier hkept hundoes hne
      have htouch := Instruction.touches_iff.mpr ⟨q, hq, hundoes.mem_bits_iff.mp hqp⟩
      rw [hfree i hi] at htouch
      cases htouch

/-- No gate finds a partner among the instructions before it; they stand latest first. -/
def Unpartnered : List Instruction → Prop
  | [] => True
  | .leaf op :: earlier => (op.isSelfInverse → withoutPartner op earlier = none) ∧ Unpartnered earlier
  | .block .. :: earlier => Unpartnered earlier

theorem Unpartnered.of_append {later earlier : List Instruction} (h : Unpartnered (later ++ earlier)) :
    Unpartnered earlier := by
  induction later with
  | nil => exact h
  | cons i rest ih =>
    cases i with
    | leaf op => exact ih h.2
    | block hd body => exact ih h

theorem apart_append_singleton {body : List Instruction} {i : Instruction} :
    Apart (body ++ [i]) ↔ Apart body ∧ ∀ b, i = .leaf b → ∀ before a between,
      body = before ++ .leaf a :: between → a.Undoes b → a.bits ≠ [] →
        ∃ j ∈ between, ∃ q ∈ j.bits, q ∈ a.bits := by
  constructor
  · intro h
    refine ⟨fun before between after a b hbody => ?_, fun b hi before a between hbody => ?_⟩
    · exact h before between (after ++ [i]) a b (by simp [hbody])
    · exact h before between [] a b (by simp [hbody, hi])
  · rintro ⟨hbody, hlast⟩ before between after a b heq
    rcases List.eq_nil_or_concat after with rfl | ⟨after, last, rfl⟩
    · have hsplit : body ++ [i] = (before ++ .leaf a :: between) ++ [.leaf b] := by simp [heq]
      obtain ⟨hb, hi⟩ := List.append_inj' hsplit rfl
      exact hlast b (by simpa using hi) before a between hb
    · have hsplit : body ++ [i] = (before ++ .leaf a :: (between ++ .leaf b :: after)) ++ [last] := by
        simp [heq]
      exact hbody before between after a b (List.append_inj' hsplit rfl).1

theorem unpartnered_iff_apart {kept : List Instruction} : Unpartnered kept ↔ Apart kept.reverse := by
  induction kept with
  | nil =>
    refine ⟨fun _ before between after a b h => ?_, fun _ => trivial⟩
    simp at h
  | cons i rest ih =>
    rw [List.reverse_cons, apart_append_singleton, ← ih]
    cases i with
    | block hd body =>
      refine ⟨fun h => ⟨h, fun b hb => ?_⟩, fun h => h.1⟩
      cases hb
    | leaf op =>
      rw [Unpartnered, and_comm]
      refine and_congr_right fun _ => ?_
      constructor
      · rintro hnone b hb before a between hrest hundoes hne
        obtain rfl : op = b := by simpa using hb
        have hsplit : rest = between.reverse ++ .leaf a :: before.reverse := by
          rw [← List.reverse_inj, hrest]
          simp
        have hpartner := (withoutPartner_eq_none_iff hundoes.cancels.2).mp (hnone hundoes.cancels.2)
        simpa using hpartner _ a _ hsplit hundoes hne
      · intro hapart hself
        refine (withoutPartner_eq_none_iff hself).mpr fun later p earlier hrest hundoes hne => ?_
        have hsplit : rest.reverse = earlier.reverse ++ .leaf p :: later.reverse := by simp [hrest]
        simpa using hapart op rfl _ p _ hsplit hundoes hne

/-- When a gate leaves together with its partner, the others stay without partners: none of those
kept since has a bit of the two. -/
theorem Unpartnered.withoutPartner {op : Operation} {kept kept' : List Instruction}
    (hk : Unpartnered kept) (hself : op.isSelfInverse) (h : withoutPartner op kept = some kept') :
    Unpartnered kept' := by
  obtain ⟨later, p, earlier, rfl, rfl, hcancels, hfree⟩ := withoutPartner_eq_some h
  have hundoes := undoes_of_cancels hcancels hself
  clear h
  induction later with
  | nil => exact hk.2
  | cons i rest ih =>
    have hrest := fun hr => ih hr fun j hj => hfree j (by simp [hj])
    cases i with
    | block hd body => exact hrest hk
    | leaf x =>
      have hskip : (Instruction.leaf p).touches x.bits = false := by
        rw [Bool.eq_false_iff, ne_eq, Instruction.touches_iff]
        rintro ⟨q, hqp, hqx⟩
        have htouch : (Instruction.leaf x).touches op.bits = true :=
          Instruction.touches_iff.mpr ⟨q, hqx, hundoes.mem_bits_iff.mp hqp⟩
        rw [hfree (.leaf x) (by simp)] at htouch
        cases htouch
      refine ⟨fun hx => ?_, hrest hk.2⟩
      exact (withoutPartner_skip hskip rest earlier).mp (hk.1 hx)

namespace Instruction

/-- What a sweep keeps: instructions in normal form, none of which could still go with another. -/
structure Clean (kept : List Instruction) : Prop where
  normal : ∀ i ∈ kept, i.Normal
  unpartnered : Unpartnered kept

theorem clean_nil : Clean [] := ⟨by simp, trivial⟩

theorem normal_assemble {h : Header} {kept : List Instruction} (hk : Clean kept) :
    (h.assemble kept.reverse).Normal := by
  have hbody := assemble_body h kept.reverse
  refine ⟨fun i hi => ?_, ?_, fun i hi => ?_⟩
  · rw [hbody] at hi
    exact (declared_subset_pushAll ⟨h, []⟩ kept.reverse).2 i hi
  · rw [hbody]
    exact unpartnered_iff_apart.mp hk.unpartnered
  · rw [hbody] at hi
    exact hk.normal i (List.mem_reverse.mp hi)

/-- What every instruction of a body leaves true of those kept, a sweep over the body leaves true. -/
theorem sweepAll_preserves {P : List Instruction → Prop} {body : List Instruction}
    (step : ∀ i ∈ body, ∀ kept, P kept → P (sweepInto kept i).1) {kept : List Instruction}
    (hk : P kept) : P (sweepInto.sweepAll kept body).1 := by
  induction body generalizing kept with
  | nil => exact hk
  | cons i rest ih =>
    have hrest := ih (fun j hj => step j (by simp [hj])) (step i (by simp) kept hk)
    simpa only [sweepInto.sweepAll] using hrest

theorem clean_sweepInto_leaf (op : Operation) {kept : List Instruction} (hk : Clean kept) :
    Clean (sweepInto kept (leaf op)).1 := by
  by_cases he : op.enabled
  · have hkeep : (op.isSelfInverse → withoutPartner op kept = none) → Clean (leaf op :: kept) := by
      intro hnone
      refine ⟨fun i hi => ?_, hnone, hk.unpartnered⟩
      rcases List.mem_cons.mp hi with rfl | hi
      · exact .leaf he
      · exact hk.normal i hi
    by_cases hself : op.isSelfInverse
    · cases hp : withoutPartner op kept with
      | none => simpa [sweepInto, he, hself, hp] using hkeep fun _ => hp
      | some kept' =>
        have hunpartnered := hk.unpartnered.withoutPartner hself hp
        obtain ⟨later, p, earlier, rfl, rfl, -, -⟩ := withoutPartner_eq_some hp
        have hnormal : ∀ i ∈ later ++ earlier, i.Normal := by
          intro i hi
          refine hk.normal i ?_
          rcases List.mem_append.mp hi with hi | hi <;> simp [hi]
        simpa [sweepInto, he, hself, hp] using Clean.mk hnormal hunpartnered
    · simpa [sweepInto, he, hself] using hkeep fun h => absurd h hself
  · simpa [sweepInto, he] using hk

theorem clean_sweepInto (i : Instruction) (kept : List Instruction) (hk : Clean kept) :
    Clean (sweepInto kept i).1 := by
  -- a block is swept inside from an empty list, and then kept
  induction i using tree_induction generalizing kept with
  | leaf op => exact clean_sweepInto_leaf op hk
  | block h body ih =>
    by_cases he : h.enabled
    · have hinner := sweepAll_preserves ih clean_nil
      rcases hs : sweepInto.sweepAll [] body with ⟨inner, removed⟩
      rw [hs] at hinner
      have hnormal := normal_assemble (h := h) hinner
      have henabled := (assemble_enabled h inner.reverse).trans he
      have hblock : (ofKernel (h.assemble inner.reverse)).Normal :=
        .block henabled hnormal.declared hnormal.apart hnormal.inside
      have hkeep : Clean (ofKernel (h.assemble inner.reverse) :: kept) := by
        refine ⟨fun j hj => ?_, hk.unpartnered⟩
        rcases List.mem_cons.mp hj with rfl | hj
        · exact hblock
        · exact hk.normal j hj
      simpa [sweepInto, he, hs] using hkeep
    · simpa [sweepInto, he] using hk

/-- A sweep over a body in normal form goes through it and takes nothing away. -/
theorem sweepAll_normal (body : List Instruction)
    (step : ∀ i ∈ body, ∀ kept, Unpartnered (i :: kept) → sweepInto kept i = (i :: kept, 0))
    (kept : List Instruction) (hk : Unpartnered (body.reverse ++ kept)) :
    sweepInto.sweepAll kept body = (body.reverse ++ kept, 0) := by
  induction body generalizing kept with
  | nil => rfl
  | cons i rest ih =>
    have hsplit : (i :: rest).reverse ++ kept = rest.reverse ++ i :: kept := by simp
    rw [hsplit] at hk ⊢
    have hrest := ih (fun j hj => step j (by simp [hj])) (i :: kept) hk
    rw [sweepInto.sweepAll, step i (by simp) kept hk.of_append]
    simp [hrest]

theorem sweepInto_normal {i : Instruction} (hi : i.Normal) (kept : List Instruction)
    (hk : Unpartnered (i :: kept)) : sweepInto kept i = (i :: kept, 0) := by
  induction hi generalizing kept with
  | leaf enabled =>
    rename_i op
    by_cases hself : op.isSelfInverse
    · simp [sweepInto, enabled, hself, hk.1 hself]
    · simp [sweepInto, enabled, hself]
  | @block h body enabled declared apart inside ih =>
    have hbody : Unpartnered (body.reverse ++ []) := by
      rw [List.append_nil, unpartnered_iff_apart, List.reverse_reverse]
      exact apart
    have hsweep := sweepAll_normal body ih [] hbody
    have hassemble : h.assemble body = ⟨h, body⟩ := pushAll_of_declared h [] declared
    simp [sweepInto, enabled, hsweep, hassemble, ofKernel]

end Instruction

namespace Kernel

theorem normal_sweep (k : Kernel) : k.sweep.1.Normal := by
  have hclean : Instruction.Clean (Instruction.sweepInto.sweepAll [] k.body).1 :=
    Instruction.sweepAll_preserves (fun i _ => Instruction.clean_sweepInto i) Instruction.clean_nil
  exact Instruction.normal_assemble hclean

theorem sweep_of_normal {k : Kernel} (h : k.Normal) : k.sweep = (k, 0) := by
  have hbody : Unpartnered (k.body.reverse ++ []) := by
    rw [List.append_nil, unpartnered_iff_apart, List.reverse_reverse]
    exact h.apart
  have hsweep := Instruction.sweepAll_normal k.body
    (fun i hi => Instruction.sweepInto_normal (h.inside i hi)) [] hbody
  have hassemble : k.header.assemble k.body = k := pushAll_of_declared k.header [] h.declared
  simp [sweep, hsweep, hassemble]

/-- A kernel is left alone by a sweep exactly if it is in normal form. -/
theorem normal_iff_sweep_eq (k : Kernel) : k.Normal ↔ k.sweep = (k, 0) := by
  refine ⟨sweep_of_normal, fun h => ?_⟩
  have hnormal := k.normal_sweep
  rwa [h] at hnormal

theorem optimize_eq_sweep (tries : ℕ) (k : Kernel) : k.optimize (tries + 1) = k.sweep.1 := by
  induction tries generalizing k with
  | zero => rcases optimize_succ 0 k with h | h <;> exact h
  | succ tries ih =>
    rcases optimize_succ (tries + 1) k with h | h
    · exact h
    · rw [h, ih, sweep_of_normal k.normal_sweep]

end Kernel

/-- One sweep brings any kernel into normal form, and a sweep leaves alone exactly the kernels that
are in it. Therefore any number of sweeps does what one does, optimizers with different limits do
the same, and doing it again changes nothing. -/
theorem sweep_reaches_normal_form :
    (∀ k : Kernel, k.sweep.1.Normal ∧ k.sweep.1.sweep = (k.sweep.1, 0)) ∧
    (∀ k : Kernel, k.Normal ↔ k.sweep = (k, 0)) ∧
    (∀ (k : Kernel) (tries tries' : ℕ), (k.optimize (tries + 1)).Normal ∧
      k.optimize (tries + 1) = k.optimize 1 ∧
      (k.optimize (tries + 1)).optimize (tries' + 1) = k.optimize (tries + 1)) ∧
    ∀ (o o' : Optimizer) (p : Program), o.transform p = o'.transform p ∧
      o'.transform (o.transform p) = o.transform p := by
  have hagain : ∀ (k : Kernel) (tries tries' : ℕ),
      (k.optimize (tries + 1)).optimize (tries' + 1) = k.optimize (tries + 1) := by
    intro k tries tries'
    rw [Kernel.optimize_eq_sweep tries k, Kernel.optimize_eq_sweep tries',
      Kernel.sweep_of_normal k.normal_sweep]
  refine ⟨fun k => ⟨k.normal_sweep, Kernel.sweep_of_normal k.normal_sweep⟩,
    Kernel.normal_iff_sweep_eq, fun k tries tries' => ⟨?_, ?_, hagain k tries tries'⟩, fun o o' p => ?_⟩
  · rw [Kernel.optimize_eq_sweep]
    exact k.normal_sweep
  · rw [Kernel.optimize_eq_sweep, Kernel.optimize_eq_sweep]
  · obtain ⟨tries, htries⟩ := Nat.exists_eq_add_one.mpr o.tries_pos
    obtain ⟨tries', htries'⟩ := Nat.exists_eq_add_one.mpr o'.tries_pos
    have hsame : Kernel.optimize (tries + 1) = Kernel.optimize (tries' + 1) := by
      funext k
      rw [Kernel.optimize_eq_sweep, Kernel.optimize_eq_sweep]
    constructor
    · rw [Optimizer.transform, Optimizer.transform, htries, htries', hsame]
    · simp only [Optimizer.transform, htries, htries', List.map_map, Function.comp_def, hagain]

end QuantumKernels
