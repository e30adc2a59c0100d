import QuantumKernels.Proofs.NormalForm
import Mathlib.Data.List.Pairwise
import Mathlib.Data.List.Perm.Basic
import Mathlib.Data.List.ReduceOption
import Mathlib.Data.Option.Basic

/-!
# Sweeps with a stack for each wire

A sweep can be made without going back over what it has kept. Instructions are put into slots, and each wire
has the stack of the slots that are on it. A gate has a partner exactly if all its wires have one slot on top
and the gate in it cancels. With both taken out, the slots that are left are the instructions that a sweep
keeps, and the stacks are those of the slots that are left. So the two ways come to the same.
-/
namespace QuantumKernels

/-- Slots in order, those whose instruction has disappeared empty, and for each wire the slots on it, latest
first. -/
structure Wired where
  slots : List (Option Instruction)
  stack : ℕ → List ℕ

theorem Instruction.operation?_eq_some_iff {i : Instruction} {op : Operation} :
    i.operation? = some op ↔ i = leaf op := by
  cases i <;> simp [operation?]

namespace Wired

def empty : Wired := ⟨[], fun _ => []⟩

/-- The stacks after a slot has been put on some wires, one after another. -/
def push (stack : ℕ → List ℕ) (slot : ℕ) (bits : List ℕ) : ℕ → List ℕ :=
  bits.foldl (fun stack q => Function.update stack q (slot :: stack q)) stack

/-- The stacks after a slot has been taken off some wires, one after another. -/
def pop (stack : ℕ → List ℕ) (bits : List ℕ) : ℕ → List ℕ :=
  bits.foldl (fun stack q => Function.update stack q (stack q).tail) stack

/-- The slot of a gate that cancels with this one, if that is on top of all its wires. -/
def partner? (w : Wired) (op : Operation) : Option ℕ := do
  guard op.isSelfInverse
  let first ← op.bits.head?
  let top ← (w.stack first).head?
  guard (op.bits.tail.all fun q => (w.stack q).head? == some top)
  let previous ← (← w.slots[top]?).bind Instruction.operation?
  guard (previous.bits.length = op.bits.length ∧ previous.cancels op)
  return top

/-- Puts an instruction into the next slot. -/
def keep (w : Wired) (i : Instruction) : Wired := ⟨w.slots ++ [some i], push w.stack w.slots.length i.bits⟩

/-- Takes out a slot with the wires of a gate that cancels. -/
def takeOut (w : Wired) (slot : ℕ) (bits : List ℕ) : Wired := ⟨w.slots.set slot none, pop w.stack bits⟩

/-- The instructions that are left, in order. -/
def left (w : Wired) : List Instruction := w.slots.reduceOption

def sweepInto (w : Wired) : Instruction → Wired × ℕ
  | .leaf op =>
    if op.enabled then
      match w.partner? op with
      | some slot => (w.takeOut slot op.bits, 2)
      | none => (w.keep (.leaf op), 0)
    else (w, 1)
  | .block h body =>
    if h.enabled then
      let (inner, removed) := sweepAll empty body
      (w.keep (.ofKernel (h.assemble inner.left)), removed)
    else (w, 1)
where
  sweepAll (w : Wired) : List Instruction → Wired × ℕ
    | [] => (w, 0)
    | i :: rest =>
      let (w, removed) := sweepInto w i
      let (w, removed') := sweepAll w rest
      (w, removed + removed')

/-- The instructions that are left with their slots, latest first. -/
def shown (w : Wired) : List (Instruction × ℕ) :=
  w.slots.zipIdx.reverse.filterMap fun s => s.1.map (·, s.2)

/-- The slots of some instructions on a wire, each as often as its instruction names the wire. -/
def onWire (q : ℕ) (l : List (Instruction × ℕ)) : List ℕ :=
  l.flatMap fun s => List.replicate (s.1.bits.count q) s.2

/-- Every stack has the slots that are left on its wire. -/
def Stacked (w : Wired) : Prop := ∀ q, w.stack q = onWire q w.shown

theorem onWire_cons (q : ℕ) (i : Instruction) (slot : ℕ) (l : List (Instruction × ℕ)) :
    onWire q ((i, slot) :: l) = List.replicate (i.bits.count q) slot ++ onWire q l := rfl

theorem onWire_append (q : ℕ) (l l' : List (Instruction × ℕ)) : onWire q (l ++ l') = onWire q l ++ onWire q l' :=
  List.flatMap_append

theorem mem_onWire {q : ℕ} {l : List (Instruction × ℕ)} {slot : ℕ} :
    slot ∈ onWire q l ↔ ∃ s ∈ l, q ∈ s.1.bits ∧ s.2 = slot := by
  simp only [onWire, List.mem_flatMap, List.mem_replicate, ne_eq, List.count_eq_zero, not_not, @eq_comm ℕ slot]

theorem onWire_of_free {q : ℕ} {l : List (Instruction × ℕ)} (hfree : ∀ s ∈ l, q ∉ s.1.bits) :
    onWire q l = [] := by
  refine List.eq_nil_iff_forall_not_mem.mpr fun slot hslot => ?_
  obtain ⟨s, hs, hq, -⟩ := mem_onWire.mp hslot
  exact hfree s hs hq

theorem push_apply (stack : ℕ → List ℕ) (slot : ℕ) (bits : List ℕ) (q : ℕ) :
    push stack slot bits q = List.replicate (bits.count q) slot ++ stack q := by
  induction bits generalizing stack with
  | nil => rfl
  | cons b rest ih =>
    have hrest := ih (Function.update stack b (slot :: stack b))
    by_cases hb : b = q
    · subst hb
      rw [Function.update_self, ← List.singleton_append, ← List.append_assoc,
        ← List.replicate_succ'] at hrest
      rw [List.count_cons_self]
      exact hrest
    · rw [Function.update_of_ne (Ne.symm hb)] at hrest
      rw [List.count_cons_of_ne hb]
      exact hrest

theorem pop_apply (stack : ℕ → List ℕ) (bits : List ℕ) (q : ℕ) :
    pop stack bits q = (stack q).drop (bits.count q) := by
  induction bits generalizing stack with
  | nil => rfl
  | cons b rest ih =>
    have hrest := ih (Function.update stack b (stack b).tail)
    by_cases hb : b = q
    · subst hb
      rw [Function.update_self, List.drop_tail] at hrest
      rw [List.count_cons_self]
      exact hrest
    · rw [Function.update_of_ne (Ne.symm hb)] at hrest
      rw [List.count_cons_of_ne hb]
      exact hrest

theorem mem_shown {w : Wired} {i : Instruction} {slot : ℕ} :
    (i, slot) ∈ w.shown ↔ w.slots[slot]? = some (some i) := by
  simp only [shown, List.mem_filterMap, List.mem_reverse, Option.map_eq_some_iff, Prod.exists,
    List.mem_zipIdx_iff_getElem?]
  aesop

theorem nodup_shown (w : Wired) : (w.shown.map Prod.snd).Nodup := by
  have hslots : w.slots.zipIdx.reverse.Pairwise fun a b => a.2 ≠ b.2 := by
    have hrange : (w.slots.zipIdx.map Prod.snd).Nodup := by
      rw [List.zipIdx_map_snd]
      exact List.nodup_range'
    exact List.pairwise_reverse.mpr ((List.pairwise_map.mp hrange).imp Ne.symm)
  refine List.pairwise_map.mpr (hslots.filterMap _ fun a b hne s hs t ht => ?_)
  obtain ⟨_, -, rfl⟩ := Option.map_eq_some_iff.mp hs
  obtain ⟨_, -, rfl⟩ := Option.map_eq_some_iff.mp ht
  exact hne

/-- What is left are the instructions that are shown, the other way round. -/
theorem left_eq (w : Wired) : w.left = (w.shown.map Prod.fst).reverse := by
  have hslots : w.slots.zipIdx.filterMap Prod.fst = w.slots.reduceOption := by
    rw [List.reduceOption, ← List.zipIdx_map_fst 0 w.slots, List.filterMap_map]
    simp
  rw [left, ← hslots, shown, ← List.map_reverse, ← List.filterMap_reverse, List.reverse_reverse,
    List.map_filterMap]
  simp [Function.comp_def]

theorem shown_keep (w : Wired) (i : Instruction) : (w.keep i).shown = (i, w.slots.length) :: w.shown := by
  simp [shown, keep, List.zipIdx_append]

/-- Emptying a slot takes its instruction from those that are left. -/
theorem shown_takeOut (w : Wired) (slot : ℕ) (bits : List ℕ) :
    (w.takeOut slot bits).shown = w.shown.filter (·.2 ≠ slot) := by
  have hset : (w.slots.set slot none).zipIdx =
      w.slots.zipIdx.map fun s => if s.2 = slot then (none, s.2) else s := by
    refine List.ext_getElem? fun n => ?_
    simp only [List.getElem?_zipIdx, List.getElem?_set, List.getElem?_map]
    by_cases hn : slot = n
    · subst hn
      by_cases hlt : slot < w.slots.length <;> simp [hlt]
    · cases w.slots[n]? <;> simp [hn, Ne.symm hn]
  rw [shown, takeOut, hset, ← List.map_reverse, List.filterMap_map, shown, List.filter_filterMap]
  refine List.filterMap_congr fun s _ => ?_
  by_cases hs : s.2 = slot <;> cases h : s.1 <;> simp [hs, h, Option.filter]

theorem stacked_empty : empty.Stacked := fun _ => rfl

theorem Stacked.keep {w : Wired} (hw : w.Stacked) (i : Instruction) : (w.keep i).Stacked := by
  intro q
  rw [shown_keep, onWire_cons, ← hw q]
  exact push_apply w.stack w.slots.length i.bits q

section Partner

variable {w : Wired} {op p : Operation} {slot : ℕ} {later earlier : List (Instruction × ℕ)}

theorem partner?_eq_some_iff : w.partner? op = some slot ↔
    op.isSelfInverse ∧ op.bits ≠ [] ∧ (∀ q ∈ op.bits, (w.stack q).head? = some slot) ∧
      ∃ p, w.slots[slot]? = some (some (.leaf p)) ∧ p.bits.length = op.bits.length ∧ p.cancels op := by
  cases hbits : op.bits with
  | nil => simp [partner?, hbits]
  | cons first rest =>
    simp only [partner?, hbits, Option.bind_eq_bind, Option.bind_eq_some_iff, Option.guard_eq_some',
      Instruction.operation?_eq_some_iff]
    simp [and_assoc]

/-- The slot on top of a wire is that of the latest instruction on it. -/
theorem Stacked.head? (hw : w.Stacked) {i : Instruction} (hshown : w.shown = later ++ (i, slot) :: earlier)
    {q : ℕ} (hq : q ∈ i.bits) (hfree : ∀ s ∈ later, q ∉ s.1.bits) : (w.stack q).head? = some slot := by
  have hcount : i.bits.count q ≠ 0 := (List.count_pos_iff.mpr hq).ne'
  rw [hw q, hshown, onWire_append, onWire_of_free hfree, List.nil_append, onWire_cons, List.head?_append,
    List.head?_replicate, if_neg hcount, Option.some_or]

theorem apart_of_shown {i : Instruction} (hshown : w.shown = later ++ (i, slot) :: earlier) :
    ∀ s ∈ later ++ earlier, s.2 ≠ slot := by
  have hnodup := w.nodup_shown
  rw [hshown, List.map_append, List.map_cons, List.nodup_middle, List.nodup_cons, ← List.map_append] at hnodup
  exact fun s hs heq => hnodup.1 (List.mem_map.mpr ⟨s, hs, heq⟩)

/-- Nothing after the slot that all wires of a gate have on top is on one of them. -/
theorem Stacked.free (hw : w.Stacked) (hshown : w.shown = later ++ (.leaf p, slot) :: earlier)
    (htop : ∀ q ∈ op.bits, (w.stack q).head? = some slot) : ∀ q ∈ op.bits, ∀ s ∈ later, q ∉ s.1.bits := by
  intro q hop s hs hq
  have hmem : slot ∈ onWire q later := by
    have hne : onWire q later ≠ [] := List.ne_nil_of_mem (mem_onWire.mpr ⟨s, hs, hq, rfl⟩)
    have hhead := htop q hop
    rw [hw q, hshown, onWire_append, List.head?_append_of_ne_nil _ hne] at hhead
    exact List.mem_of_mem_head? hhead
  obtain ⟨t, ht, -, hslot⟩ := mem_onWire.mp hmem
  exact apart_of_shown hshown t (List.mem_append_left _ ht) hslot

/-- With a gate taken out, the stacks of its wires lose just its slot. -/
theorem Stacked.takeOut (hw : w.Stacked) (hshown : w.shown = later ++ (.leaf p, slot) :: earlier)
    (hundoes : p.Undoes op) (hfree : ∀ q ∈ op.bits, ∀ s ∈ later, q ∉ s.1.bits) :
    (w.takeOut slot op.bits).Stacked ∧ (w.takeOut slot op.bits).shown = later ++ earlier := by
  have hleft : (w.takeOut slot op.bits).shown = later ++ earlier := by
    have hapart := apart_of_shown hshown
    rw [shown_takeOut, hshown, List.filter_append, List.filter_cons_of_neg (by simp), ← List.filter_append]
    exact List.filter_eq_self.mpr fun s hs => by simpa using hapart s hs
  refine ⟨fun q => ?_, hleft⟩
  have hcount : (Instruction.leaf p).bits.count q = op.bits.count q := by
    rcases hundoes.bits with hbits | ⟨-, hbits⟩
    · exact congrArg (List.count q) hbits
    · exact hbits.count_eq q
  have hstack : (w.takeOut slot op.bits).stack q =
      (onWire q later ++ (List.replicate (op.bits.count q) slot ++ onWire q earlier)).drop (op.bits.count q) := by
    rw [← hcount, ← onWire_cons, ← onWire_append, ← hshown, ← hw q, hcount]
    exact pop_apply w.stack op.bits q
  rw [hstack, hleft, onWire_append]
  by_cases hq : q ∈ op.bits
  · rw [onWire_of_free (hfree q hq), List.nil_append, List.nil_append]
    exact List.drop_left' List.length_replicate
  · rw [List.count_eq_zero_of_not_mem hq, List.replicate_zero, List.nil_append, List.drop_zero]

end Partner

/-- The search on the stacks finds the partner that the scan finds, and nothing where the scan finds nothing. -/
theorem Stacked.partner {w : Wired} (hw : w.Stacked) (op : Operation) :
    match w.partner? op with
    | some slot => op.isSelfInverse ∧ (w.takeOut slot op.bits).Stacked ∧
        withoutPartner op (w.shown.map Prod.fst) = some ((w.takeOut slot op.bits).shown.map Prod.fst)
    | none => op.isSelfInverse → withoutPartner op (w.shown.map Prod.fst) = none := by
  cases hpartner : w.partner? op with
  | some slot =>
    obtain ⟨hself, hne, htop, p, hslot, -, hcancels⟩ := partner?_eq_some_iff.mp hpartner
    obtain ⟨later, earlier, hshown⟩ := List.append_of_mem (mem_shown.mpr hslot)
    have hundoes := undoes_of_cancels hcancels hself
    have hfree := hw.free hshown htop
    obtain ⟨hstacked, hleft⟩ := hw.takeOut hshown hundoes hfree
    obtain ⟨q, hq⟩ := List.exists_mem_of_ne_nil _ hne
    have htouch : (Instruction.leaf p).touches op.bits :=
      Instruction.touches_iff.mpr ⟨q, hundoes.mem_bits_iff.mpr hq, hq⟩
    have hskip : ∀ i ∈ later.map Prod.fst, i.touches op.bits = false := by
      refine List.forall_mem_map.mpr fun s hs => ?_
      rw [Bool.eq_false_iff, ne_eq, Instruction.touches_iff]
      exact fun ⟨q, hq, hop⟩ => hfree q hop s hs hq
    refine ⟨hself, hstacked, ?_⟩
    rw [hshown, hleft, List.map_append, List.map_cons, withoutPartner_of_free hskip, withoutPartner,
      if_pos htouch]
    simp [hcancels]
  | none =>
    intro hself
    cases hscan : withoutPartner op (w.shown.map Prod.fst) with
    | none => rfl
    | some kept =>
      obtain ⟨later, p, earlier, hkept, -, hcancels, hfree⟩ := withoutPartner_eq_some hscan
      obtain ⟨later, rest, hshown, rfl, hrest⟩ := List.map_eq_append_iff.mp hkept
      obtain ⟨⟨_, slot⟩, earlier, rfl, rfl, -⟩ := List.map_eq_cons_iff.mp hrest
      have hundoes := undoes_of_cancels hcancels hself
      have hne : op.bits ≠ [] := by
        intro hnil
        rw [withoutPartner_of_no_bits hnil] at hscan
        cases hscan
      have htop : ∀ q ∈ op.bits, (w.stack q).head? = some slot := by
        refine fun q hq => hw.head? hshown (hundoes.mem_bits_iff.mpr hq) fun s hs hmem => ?_
        have hs := hfree s.1 (List.mem_map_of_mem hs)
        rw [Bool.eq_false_iff, ne_eq, Instruction.touches_iff] at hs
        exact hs ⟨q, hmem, hq⟩
      have hlength : p.bits.length = op.bits.length := by
        rcases hundoes.bits with hbits | ⟨-, hbits⟩
        · rw [hbits]
        · exact hbits.length_eq
      have hslot : w.slots[slot]? = some (some (.leaf p)) := mem_shown.mp (by simp [hshown])
      have hfound := partner?_eq_some_iff.mpr ⟨hself, hne, htop, p, hslot, hlength, hcancels⟩
      rw [hpartner] at hfound
      cases hfound

theorem sweepAll_scans (body : List Instruction)
    (step : ∀ i ∈ body, ∀ w : Wired, w.Stacked → (w.sweepInto i).1.Stacked ∧
      i.sweepInto (w.shown.map Prod.fst) = ((w.sweepInto i).1.shown.map Prod.fst, (w.sweepInto i).2))
    (w : Wired) (hw : w.Stacked) :
    (sweepInto.sweepAll w body).1.Stacked ∧ Instruction.sweepInto.sweepAll (w.shown.map Prod.fst) body =
      ((sweepInto.sweepAll w body).1.shown.map Prod.fst, (sweepInto.sweepAll w body).2) := by
  induction body generalizing w with
  | nil => exact ⟨hw, rfl⟩
  | cons i rest ih =>
    obtain ⟨hfirst, hmet⟩ := step i (by simp) w hw
    obtain ⟨hothers, hrest⟩ := ih (fun j hj => step j (by simp [hj])) _ hfirst
    refine ⟨hothers, ?_⟩
    rw [Instruction.sweepInto.sweepAll, hmet]
    simp only [hrest, sweepInto.sweepAll]

/-- With stacks an instruction is met as without them. -/
theorem sweepInto_scans (i : Instruction) (w : Wired) (hw : w.Stacked) :
    (w.sweepInto i).1.Stacked ∧
      i.sweepInto (w.shown.map Prod.fst) = ((w.sweepInto i).1.shown.map Prod.fst, (w.sweepInto i).2) := by
  induction i using Instruction.tree_induction generalizing w with
  | leaf op =>
    by_cases henabled : op.enabled
    · have hpartner := hw.partner op
      cases h : w.partner? op with
      | some slot =>
        rw [h] at hpartner
        obtain ⟨hself, hstacked, hscan⟩ := hpartner
        simpa [sweepInto, Instruction.sweepInto, henabled, h, hself, hscan] using hstacked
      | none =>
        rw [h] at hpartner
        have hscan : (if op.isSelfInverse then withoutPartner op (w.shown.map Prod.fst) else none) = none := by
          simpa using hpartner
        simpa [sweepInto, Instruction.sweepInto, henabled, h, hscan, shown_keep] using hw.keep (.leaf op)
    · simpa [sweepInto, Instruction.sweepInto, henabled] using hw
  | block h body ih =>
    by_cases henabled : h.enabled
    · have hinside := (sweepAll_scans body ih empty stacked_empty).2
      have hkeep := hw.keep (.ofKernel (h.assemble (sweepInto.sweepAll empty body).1.left))
      change Instruction.sweepInto.sweepAll [] body = _ at hinside
      simpa [sweepInto, Instruction.sweepInto, henabled, hinside, shown_keep, left_eq] using hkeep
    · simpa [sweepInto, Instruction.sweepInto, henabled] using hw

end Wired

/-- One sweep with stacks. -/
def Kernel.sweepOnWires (k : Kernel) : Kernel × ℕ :=
  let (w, removed) := Wired.sweepInto.sweepAll .empty k.body
  (k.header.assemble w.left, removed)


/-- Sweeps with stacks until one of them removes nothing, at most so many times. -/
def Kernel.optimizeOnWires : (tries : ℕ) → Kernel → Kernel
  | 0, k => k
  | tries + 1, k =>
    let (swept, removed) := k.sweepOnWires
    if removed = 0 then swept else optimizeOnWires tries swept

/-- Stacks for the wires and a scan over what is kept make the same sweep. -/
theorem Kernel.sweepOnWires_eq (k : Kernel) : k.sweepOnWires = k.sweep := by
  have hbody := (Wired.sweepAll_scans k.body (fun i _ => Wired.sweepInto_scans i) .empty Wired.stacked_empty).2
  change Instruction.sweepInto.sweepAll [] k.body = _ at hbody
  simp only [sweep, hbody, sweepOnWires, Wired.left_eq]

theorem Kernel.optimizeOnWires_eq (tries : ℕ) (k : Kernel) : k.optimizeOnWires tries = k.optimize tries := by
  induction tries generalizing k with
  | zero => rfl
  | succ tries ih => simp only [optimizeOnWires, optimize, sweepOnWires_eq, ih]

end QuantumKernels
