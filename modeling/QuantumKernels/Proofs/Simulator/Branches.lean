import QuantumKernels.Proofs.Simulator.BasisState
import QuantumKernels.Proofs.Simulator.Register
import QuantumKernels.Proofs.Tree
import QuantumKernels.Simulator.Plan

/-!
# The two ways to run a plan

A plan whose gates permute the basis states has certain outcomes. Run from one evolution, a
slot shows one if any of its readings does; run shot by shot, it shows the last of them. The
two ways agree exactly if, in every slot, a one is never read over.
-/
namespace QuantumKernels

namespace Buffer

/-- Counting one outcome over and over. -/
def tally (bits : String) (n : ℕ) : Dictionary ℕ := (fun counts => addCount counts bits 1)^[n] ∅

theorem get?_tally (bits key : String) (n : ℕ) :
    (tally bits n).get? key = if 0 < n ∧ bits = key then some n else none := by
  induction n generalizing key with
  | zero =>
    have hempty : tally bits 0 = Dictionary.empty := rfl
    rw [hempty, Dictionary.get?_empty]
    simp
  | succ n ih =>
    have hstep : tally bits (n + 1) = addCount (tally bits n) bits 1 :=
      Function.iterate_succ_apply' _ n ∅
    have hsame : ((tally bits n).get? bits).getD 0 = n := by
      rw [ih bits]
      rcases Nat.eq_zero_or_pos n with rfl | hn
      · rfl
      · simp [hn]
    rw [hstep, addCount, if_neg (by decide), Dictionary.alter, Dictionary.get?_insert, hsame, ih key]
    by_cases hkey : bits = key <;> simp [hkey]

theorem tally_inj {bits bits' : String} {n : ℕ} :
    tally bits n = tally bits' n ↔ n = 0 ∨ bits = bits' := by
  constructor
  · intro h
    rcases Nat.eq_zero_or_pos n with hn | hn
    · exact .inl hn
    · have hkey := get?_tally bits bits n
      rw [h, get?_tally] at hkey
      right
      by_contra hne
      simp [hn, Ne.symm hne] at hkey
  · rintro (rfl | rfl) <;> rfl

end Buffer

namespace Plan

/-- What is read at the end: qubits and the slots they are read into, in order. -/
abbrev Readout := List (ℕ × ℕ)

/-- The outcome whose slots are set by every reading of a one. -/
def orInto (index : ℕ) (readout : Readout) (bits : List Char) : List Char :=
  readout.foldl (fun bits e => if index.testBit e.1 then bits.set e.2 '1' else bits) bits

/-- The outcome whose slots are written by every reading. -/
def lastInto (index : ℕ) (readout : Readout) (bits : List Char) : List Char :=
  readout.foldl (fun bits e => bits.set e.2 (if index.testBit e.1 then '1' else '0')) bits

/-- The qubit that is read last into a slot. -/
def lastQubit? (readout : Readout) (slot : ℕ) : Option ℕ :=
  (readout.reverse.find? fun e => e.2 == slot).map (·.1)

/-- Where a reading gives one, so does the last reading into its slot. -/
def OnesLast (index : ℕ) (readout : Readout) : Prop :=
  ∀ e ∈ readout, index.testBit e.1 → ∃ q, lastQubit? readout e.2 = some q ∧ index.testBit q

theorem orInto_append (index : ℕ) (readout : Readout) (e : ℕ × ℕ) (bits : List Char) :
    orInto index (readout ++ [e]) bits =
      if index.testBit e.1 then (orInto index readout bits).set e.2 '1'
      else orInto index readout bits := by
  simp [orInto]

theorem lastInto_append (index : ℕ) (readout : Readout) (e : ℕ × ℕ) (bits : List Char) :
    lastInto index (readout ++ [e]) bits =
      (lastInto index readout bits).set e.2 (if index.testBit e.1 then '1' else '0') := by
  simp [lastInto]

theorem lastQubit?_append (readout : Readout) (e : ℕ × ℕ) (slot : ℕ) :
    lastQubit? (readout ++ [e]) slot = if e.2 = slot then some e.1 else lastQubit? readout slot := by
  by_cases h : e.2 = slot <;> simp [lastQubit?, h]

theorem mem_of_lastQubit? {readout : Readout} {slot q : ℕ} (h : lastQubit? readout slot = some q) :
    (q, slot) ∈ readout := by
  obtain ⟨e, he, rfl⟩ := Option.map_eq_some_iff.mp h
  have hslot : e.2 = slot := by simpa using List.find?_some he
  have hmem : e ∈ readout := by simpa using List.mem_of_find?_eq_some he
  rwa [← hslot]

theorem length_orInto (index : ℕ) (readout : Readout) (bits : List Char) :
    (orInto index readout bits).length = bits.length := by
  induction readout using List.reverseRecOn with
  | nil => rfl
  | append_singleton rest e ih =>
    rw [orInto_append]
    split
    · rw [List.length_set, ih]
    · exact ih

theorem length_lastInto (index : ℕ) (readout : Readout) (bits : List Char) :
    (lastInto index readout bits).length = bits.length := by
  induction readout using List.reverseRecOn with
  | nil => rfl
  | append_singleton rest e ih => rw [lastInto_append, List.length_set, ih]

theorem getElem?_orInto {width slot : ℕ} (hslot : slot < width) (index : ℕ) (readout : Readout) :
    (orInto index readout (List.replicate width '0'))[slot]? =
      some (if readout.any fun e => e.2 == slot && index.testBit e.1 then '1' else '0') := by
  induction readout using List.reverseRecOn with
  | nil => simp [orInto, hslot]
  | append_singleton rest e ih =>
    have hany : ((rest ++ [e]).any fun e => e.2 == slot && index.testBit e.1) =
        ((rest.any fun e => e.2 == slot && index.testBit e.1) || (e.2 == slot && index.testBit e.1)) := by
      rw [List.any_append, List.any_cons, List.any_nil, Bool.or_false]
    rw [orInto_append, hany]
    cases hbit : index.testBit e.1 with
    | true =>
      rw [if_pos rfl, List.getElem?_set', ih]
      by_cases he : e.2 = slot
      · simp [he]
      · have hother : (e.2 == slot) = false := by simpa using he
        rw [if_neg he, hother, Bool.false_and, Bool.or_false]
    | false =>
      rw [if_neg (by decide), ih, Bool.and_false, Bool.or_false]

theorem getElem?_lastInto {width slot : ℕ} (hslot : slot < width) (index : ℕ) (readout : Readout) :
    (lastInto index readout (List.replicate width '0'))[slot]? =
      some (if (lastQubit? readout slot).any index.testBit then '1' else '0') := by
  induction readout using List.reverseRecOn with
  | nil => simp [lastInto, lastQubit?, hslot]
  | append_singleton rest e ih =>
    rw [lastInto_append, List.getElem?_set', ih, lastQubit?_append]
    by_cases he : e.2 = slot <;> simp [he]

/-- The two outcomes are the same exactly if ones are read last. -/
theorem orInto_eq_lastInto {width : ℕ} {readout : Readout} (hslots : ∀ e ∈ readout, e.2 < width)
    (index : ℕ) : orInto index readout (List.replicate width '0') =
      lastInto index readout (List.replicate width '0') ↔ OnesLast index readout := by
  constructor
  · intro h e he hbit
    have hslot := hslots e he
    have hor := getElem?_orInto hslot index readout
    have hany : (readout.any fun e' => e'.2 == e.2 && index.testBit e'.1) = true :=
      List.any_eq_true.mpr ⟨e, he, by simp [hbit]⟩
    rw [h, getElem?_lastInto hslot, hany] at hor
    cases hlast : lastQubit? readout e.2 with
    | none => simp [hlast] at hor
    | some q => exact ⟨q, rfl, by simpa [hlast] using hor⟩
  · intro h
    refine List.ext_getElem? fun slot => ?_
    by_cases hslot : slot < width
    · have hiff : (readout.any fun e => e.2 == slot && index.testBit e.1) =
          (lastQubit? readout slot).any index.testBit := by
        rw [Bool.eq_iff_iff, List.any_eq_true, Option.any_eq_true]
        constructor
        · rintro ⟨e, he, hbit⟩
          simp only [Bool.and_eq_true, beq_iff_eq] at hbit
          obtain ⟨rfl, hbit⟩ := hbit
          exact h e he hbit
        · rintro ⟨q, hq, hbit⟩
          exact ⟨(q, slot), mem_of_lastQubit? hq, by simpa using hbit⟩
      rw [getElem?_orInto hslot, getElem?_lastInto hslot, hiff]
    · rw [List.getElem?_eq_none (by simpa [length_orInto] using hslot),
        List.getElem?_eq_none (by simpa [length_lastInto] using hslot)]

/-- Shots that all have the same outcome. -/
theorem repeatShots_certain {one : RandomStream → Except DeviceError (List Char × RandomStream)}
    {bits : List Char} (h : ∀ r, ∃ r', one r = .ok (bits, r')) (shots : ℕ) (r : RandomStream) :
    repeatShots one shots ∅ r = .ok (Buffer.tally (String.ofList bits) shots) := by
  have hcounts : ∀ counts r, repeatShots one shots counts r =
      .ok ((fun counts => Buffer.addCount counts (String.ofList bits) 1)^[shots] counts) := by
    induction shots with
    | zero => exact fun _ _ => rfl
    | succ shots ih =>
      intro counts r
      obtain ⟨r', hone⟩ := h r
      rw [repeatShots, hone, Function.iterate_succ_apply]
      exact ih _ r'
  exact hcounts ∅ r

theorem flip_zero (bit : Bool) (r : RandomStream) : flip 0 bit r = .ok (bit, r) := by
  have hnone : ¬ (0 : Float) < 0 := by decide +kernel
  rw [flip, if_neg hnone]

/-- Without readout errors an index is read off as it is. -/
theorem readIndex_zero {p : Plan} (hplaces : ∀ e ∈ p.readout, Register.place e.1 = e.1) (index : ℕ)
    (r : RandomStream) : p.readIndex 0 index r = .ok (orInto index p.readout p.blank, r) := by
  unfold readIndex orInto
  simp only [flip_zero]
  generalize p.blank = bits
  generalize p.readout = readout at hplaces
  induction readout generalizing bits with
  | nil => rfl
  | cons e rest ih =>
    rw [List.foldlM_cons, hplaces e (by simp)]
    exact ih _ fun e he => hplaces e (by simp [he])

end Plan

/-- A measurement of one qubit into a slot. -/
structure Operation.Reads (op : Operation) : Prop where
  bits : op.bits.length = 1
  slot : op.slot?.isSome

/-- The qubit that is read and the slot it is read into. -/
def Operation.readout (op : Operation) : ℕ × ℕ := (op.bits.headD 0, op.slot?.getD 0)

theorem Operation.Reads.isMeasure {op : Operation} (h : op.Reads) : op.isMeasure := by
  by_contra hnot
  have hslot := h.slot
  rw [slot?, if_neg hnot] at hslot
  exact absurd hslot (by decide)

theorem Operation.Classical.not_isMeasure {op : Operation} (h : op.Classical) :
    op.isMeasure = false := by
  cases h with
  | one q hname _ => rcases hname with hname | hname <;> simp [isMeasure, hname, measureName]
  | two a b hname _ _ => rcases hname with hname | hname <;> simp [isMeasure, hname, measureName]

namespace Plan

theorem readoutOf_eq {op : Operation} (h : op.Reads) (kernel : String) :
    readoutOf kernel op = .ok op.readout := by
  obtain ⟨slot, hslot⟩ := Option.isSome_iff_exists.mp h.slot
  obtain ⟨q, hq⟩ := List.length_eq_one_iff.mp h.bits
  simp [readoutOf, Operation.readout, hslot, hq]

theorem mapM_readoutOf {ops : List Operation} (h : ∀ op ∈ ops, op.Reads) (kernel : String) :
    ops.mapM (readoutOf kernel) = .ok (ops.map Operation.readout) := by
  induction ops with
  | nil => rfl
  | cons op rest ih =>
    rw [List.mapM_cons, readoutOf_eq (h op (by simp)), ih fun o ho => h o (by simp [ho])]
    rfl

/-- A plan that applies gates, takes readings and applies more gates, all of a certain outcome. -/
structure Laid (p : Plan) (gates measures after : List Operation) : Prop where
  held : p.qubits ≤ Register.mostHeld
  operations : p.operations = gates ++ measures ++ after
  readout : p.readout = measures.map Operation.readout
  width : p.width = widthOf (p.readout.map (·.2))
  bits : ∀ op ∈ p.operations, ∀ q ∈ op.bits, q < p.qubits
  gates : ∀ op ∈ gates, op.Classical
  measures : ∀ op ∈ measures, op.Reads
  after : ∀ op ∈ after, op.Classical

namespace Laid

variable {p : Plan} {gates measures after : List Operation}

theorem gates_bits (h : p.Laid gates measures after) : ∀ op ∈ gates, ∀ q ∈ op.bits, q < p.qubits :=
  fun op hop => h.bits op (by simp [h.operations, hop])

theorem index_lt (h : p.Laid gates measures after) :
    StateVector.indexAfter gates 0 < 2 ^ p.qubits :=
  StateVector.indexAfter_lt h.gates h.gates_bits (Nat.two_pow_pos _)

theorem slots_lt (h : p.Laid gates measures after) : ∀ e ∈ p.readout, e.2 < p.width := by
  intro e he
  rw [h.width]
  exact lt_widthOf (List.mem_map_of_mem he)

theorem place_readout (h : p.Laid gates measures after) {op : Operation} (hop : op ∈ measures) :
    Register.place op.readout.1 = op.readout.1 := by
  obtain ⟨q, hq⟩ := List.length_eq_one_iff.mp (h.measures op hop).bits
  have hlt := h.bits op (by simp [h.operations, hop]) q (by simp [hq])
  simpa [Operation.readout, hq] using Register.place_of_held hlt h.held

theorem places (h : p.Laid gates measures after) : ∀ e ∈ p.readout, Register.place e.1 = e.1 := by
  rw [h.readout]
  intro e he
  obtain ⟨op, hop, rfl⟩ := List.mem_map.mp he
  exact h.place_readout hop

/-- One evolution ends in the basis state of the index after the gates. -/
theorem evolve (h : p.Laid gates measures []) :
    p.evolve = .ok (.basis p.qubits (StateVector.indexAfter gates 0)) := by
  have hgates : gates.filter (fun op => !op.isMeasure) = gates :=
    List.filter_eq_self.mpr fun op hop => by simp [(h.gates op hop).not_isMeasure]
  have hmeasures : measures.filter (fun op => !op.isMeasure) = [] :=
    List.filter_eq_nil_iff.mpr fun op hop => by simp [(h.measures op hop).isMeasure]
  rw [Plan.evolve, h.operations, List.append_nil, List.filter_append, hgates, hmeasures,
    List.append_nil, Register.zero_eq_basis h.held]
  exact Register.foldlM_applyOperation_basis h.held h.gates h.gates_bits

/-- Run from one evolution, every shot reads the slots by or. -/
theorem runTerminal (h : p.Laid gates measures []) (shots : ℕ) (r : RandomStream) :
    p.runTerminal shots 0 r = .ok (Buffer.tally
      (String.ofList (orInto (StateVector.indexAfter gates 0) p.readout p.blank)) shots) := by
  rw [Plan.runTerminal, h.evolve]
  refine repeatShots_certain (fun r => ?_) shots r
  obtain ⟨r', hsample⟩ := StateVector.sample_basis h.index_lt r
  refine ⟨r', ?_⟩
  change p.readIndex 0 ((StateVector.basis p.qubits (StateVector.indexAfter gates 0)).sample r).1
    ((StateVector.basis p.qubits (StateVector.indexAfter gates 0)).sample r).2 = _
  rw [hsample]
  exact readIndex_zero h.places _ r'

/-- Gates change the state of a shot and nothing else. -/
theorem foldlM_step_gates {n i : ℕ} (hheld : n ≤ Register.mostHeld) {ops : List Operation}
    (hgates : ∀ op ∈ ops, op.Classical)
    (hbits : ∀ op ∈ ops, ∀ q ∈ op.bits, q < n) (bits : List Char) (r : RandomStream) :
    ops.foldlM (Shot.step 0) ⟨.basis n i, bits, r⟩ =
      .ok ⟨.basis n (StateVector.indexAfter ops i), bits, r⟩ := by
  induction ops generalizing i with
  | nil => rfl
  | cons op rest ih =>
    have hop := Register.applyOperation_basis (i := i) hheld (hgates op (by simp)) (hbits op (by simp))
    have hstep : Shot.step 0 ⟨.basis n i, bits, r⟩ op = .ok ⟨.basis n (op.onIndex i), bits, r⟩ := by
      rw [Shot.step, if_neg (by simp [(hgates op (by simp)).not_isMeasure]), hop]
      rfl
    rw [List.foldlM_cons, hstep]
    exact ih (fun o ho => hgates o (by simp [ho])) (fun o ho => hbits o (by simp [ho]))

/-- Measurements of a basis state write their slots one after another. -/
theorem foldlM_step_measures {n i : ℕ} (hi : i < 2 ^ n) {ops : List Operation}
    (hreads : ∀ op ∈ ops, op.Reads) (hplaces : ∀ op ∈ ops, Register.place op.readout.1 = op.readout.1) (bits : List Char) (r : RandomStream) :
    ∃ r', ops.foldlM (Shot.step 0) ⟨.basis n i, bits, r⟩ =
      .ok ⟨.basis n i, lastInto i (ops.map Operation.readout) bits, r'⟩ := by
  induction ops generalizing bits r with
  | nil => exact ⟨r, rfl⟩
  | cons op rest ih =>
    obtain ⟨r₁, hmeasure⟩ := Register.measure_basis hi (hplaces op (by simp)) r
    have hstep : Shot.step 0 ⟨.basis n i, bits, r⟩ op = .ok ⟨.basis n i,
        bits.set op.readout.2 (if i.testBit op.readout.1 then '1' else '0'), r₁⟩ := by
      rw [Shot.step, if_pos (hreads op (by simp)).isMeasure]
      change ((Register.basis n i).measure op.readout.1 r).bind _ = _
      rw [hmeasure]
      simp only [Except.bind, flip_zero]
      rfl
    obtain ⟨r', hrest⟩ := ih (fun o ho => hreads o (by simp [ho])) (fun o ho => hplaces o (by simp [ho])) _ r₁
    refine ⟨r', ?_⟩
    rw [List.foldlM_cons, hstep]
    exact hrest

/-- Run shot by shot, every shot writes the slots in order. -/
theorem runShots (h : p.Laid gates measures after) (shots : ℕ) (r : RandomStream) :
    p.runShots shots 0 r = .ok (Buffer.tally
      (String.ofList (lastInto (StateVector.indexAfter gates 0) p.readout p.blank)) shots) := by
  refine repeatShots_certain (fun r => ?_) shots r
  obtain ⟨r', hmeasures⟩ :=
    foldlM_step_measures h.index_lt h.measures (fun _ => h.place_readout) p.blank r
  have hgates := foldlM_step_gates (i := 0) h.held h.gates h.gates_bits p.blank r
  have hafter := foldlM_step_gates (i := StateVector.indexAfter gates 0) h.held h.after
    (fun op hop => h.bits op (by simp [h.operations, hop]))
    (lastInto (StateVector.indexAfter gates 0) (measures.map Operation.readout) p.blank) r'
  refine ⟨r', ?_⟩
  have hrun : p.operations.foldlM (Shot.step 0) ⟨.basis p.qubits 0, p.blank, r⟩ = .ok
      ⟨.basis p.qubits (StateVector.indexAfter after (StateVector.indexAfter gates 0)),
        lastInto (StateVector.indexAfter gates 0) (measures.map Operation.readout) p.blank, r'⟩ := by
    rw [h.operations, List.foldlM_append, List.foldlM_append]
    change ((gates.foldlM (Shot.step 0) ⟨.basis p.qubits 0, p.blank, r⟩).bind _).bind _ = _
    rw [hgates]
    simp only [Except.bind]
    rw [hmeasures]
    exact hafter
  rw [shot, Register.zero_eq_basis h.held]
  change (p.operations.foldlM (Shot.step 0) _).bind _ = _
  rw [hrun, h.readout]
  rfl

theorem tally_eq_iff (h : p.Laid gates measures after) (index shots : ℕ) :
    Buffer.tally (String.ofList (orInto index p.readout p.blank)) shots =
        Buffer.tally (String.ofList (lastInto index p.readout p.blank)) shots ↔
      shots = 0 ∨ OnesLast index p.readout := by
  rw [Buffer.tally_inj, String.ofList_inj, Plan.blank, orInto_eq_lastInto h.slots_lt]

end Laid

/-- Without gates after the readings a plan is run from one evolution, otherwise shot by shot. -/
theorem ofKernel_laid {k : Kernel} {gates measures after : List Operation} {size limit : ℕ}
    (hops : k.operations = gates ++ measures ++ after) (hgates : ∀ op ∈ gates, op.Classical)
    (hmeasures : ∀ op ∈ measures, op.Reads) (hafter : ∀ op ∈ after, op.Classical)
    (hsome : measures ≠ []) (hlimit : widthOf (k.operations.flatMap Operation.bits) ≤ limit)
    (hsize : widthOf (k.operations.flatMap Operation.bits) ≤ size)
    (hheld : widthOf (k.operations.flatMap Operation.bits) ≤ Register.mostHeld) :
    ∃ p, ofKernel k size limit = .ok p ∧ p.Laid gates measures after ∧
      p.terminal = after.isEmpty := by
  have hmeasured : k.operations.filter Operation.isMeasure = measures := by
    have hnone : ∀ ops : List Operation, (∀ op ∈ ops, op.Classical) →
        ops.filter Operation.isMeasure = [] :=
      fun ops h => List.filter_eq_nil_iff.mpr fun op hop => by simp [(h op hop).not_isMeasure]
    have hall : measures.filter Operation.isMeasure = measures :=
      List.filter_eq_self.mpr fun op hop => (hmeasures op hop).isMeasure
    rw [hops, List.filter_append, List.filter_append, hnone gates hgates, hnone after hafter, hall,
      List.nil_append, List.append_nil]
  have hword : Word.wrap (widthOf (k.operations.flatMap Operation.bits)) =
      widthOf (k.operations.flatMap Operation.bits) :=
    Word.wrap_of_lt (hheld.trans_lt (by decide))
  have hread := mapM_readoutOf hmeasures k.name
  have hterminal : (k.operations.dropWhile fun op => !op.isMeasure).all Operation.isMeasure =
      after.isEmpty := by
    have hskip : k.operations.dropWhile (fun op => !op.isMeasure) = measures ++ after := by
      rw [hops, List.append_assoc,
        List.dropWhile_append_of_pos fun op hop => by simp [(hgates op hop).not_isMeasure]]
      obtain ⟨op, rest, rfl⟩ := List.exists_cons_of_ne_nil hsome
      simp [(hmeasures op (by simp)).isMeasure]
    have hall : measures.all Operation.isMeasure = true :=
      List.all_eq_true.mpr fun op hop => (hmeasures op hop).isMeasure
    rw [hskip, List.all_append, hall, Bool.true_and]
    cases after with
    | nil => rfl
    | cons op rest => simp [(hafter op (by simp)).not_isMeasure]
  have hreadout : (measures.map Operation.readout).isEmpty = false := by
    simpa using hsome
  refine ⟨⟨k.operations, widthOf (k.operations.flatMap Operation.bits), _, widthOf (List.map _ _), _⟩,
    ?_, ⟨hheld, hops, rfl, rfl, ?_, hgates, hmeasures, hafter⟩, hterminal⟩
  · rw [ofKernel]
    simp only [hword, if_neg (not_lt.mpr hlimit), if_neg (not_lt.mpr hsize), hmeasured, hread, bind,
      Except.bind, hreadout, Bool.false_eq_true, if_false, pure, Except.pure]
  · intro op hop q hq
    exact lt_widthOf (List.mem_flatMap.mpr ⟨op, hop, hq⟩)

/-- A kernel of basis gates and then readings has the same counts from one evolution and shot by
shot exactly if no shot is taken or, in every slot that reads a one, the last reading is a one.
An `I` at its end has it run shot by shot. -/
theorem run_eq_runShots_iff {k idled : Kernel} {gates measures : List Operation} {idle : Operation}
    {size limit q : ℕ} (hops : k.operations = gates ++ measures)
    (hgates : ∀ op ∈ gates, op.Classical) (hmeasures : ∀ op ∈ measures, op.Reads)
    (hsome : measures ≠ []) (hlimit : widthOf (k.operations.flatMap Operation.bits) ≤ limit)
    (hsize : widthOf (k.operations.flatMap Operation.bits) ≤ size)
    (hheld : widthOf (k.operations.flatMap Operation.bits) ≤ Register.mostHeld)
    (hidled : idled.operations = k.operations ++ [idle]) (hname : idle.name = "I")
    (hbits : idle.bits = [q]) (hused : q ∈ k.operations.flatMap Operation.bits) (shots : ℕ) :
    ∃ p p' counts counts', ofKernel k size limit = .ok p ∧ ofKernel idled size limit = .ok p' ∧
      p.terminal = true ∧ p'.terminal = false ∧ (∀ r, p.run shots 0 r = .ok counts) ∧
      (∀ r, p.runShots shots 0 r = .ok counts') ∧ (∀ r, p'.run shots 0 r = .ok counts') ∧
      (counts = counts' ↔ shots = 0 ∨
        OnesLast (StateVector.indexAfter gates 0) (measures.map Operation.readout)) := by
  have hbare : k.operations = gates ++ measures ++ [] := by rw [hops, List.append_nil]
  have hafter : idled.operations = gates ++ measures ++ [idle] := by rw [hidled, hops]
  have hidle : ∀ op ∈ [idle], op.Classical := by
    intro op hop
    obtain rfl := List.mem_singleton.mp hop
    exact .one q (.inl hname) hbits
  have hwidth : widthOf (idled.operations.flatMap Operation.bits) =
      widthOf (k.operations.flatMap Operation.bits) := by
    rw [hidled, List.flatMap_append, List.flatMap_singleton, hbits]
    exact widthOf_append_singleton hused
  obtain ⟨p, hplan, hlaid, hterminal⟩ :=
    ofKernel_laid hbare hgates hmeasures (by simp) hsome hlimit hsize hheld
  obtain ⟨p', hplan', hlaid', hterminal'⟩ := ofKernel_laid hafter hgates hmeasures hidle hsome
    (hwidth.trans_le hlimit) (hwidth.trans_le hsize) (hwidth.trans_le hheld)
  -- the two plans have the same slots, so they differ in the branch alone
  have hreadout : p'.readout = p.readout := by rw [hlaid'.readout, hlaid.readout]
  have hblank : p'.blank = p.blank := by
    rw [Plan.blank, Plan.blank, hlaid'.width, hlaid.width, hreadout]
  have hone : ∀ r, p.run shots 0 r = .ok (Buffer.tally (String.ofList
      (orInto (StateVector.indexAfter gates 0) p.readout p.blank)) shots) := by
    intro r
    rw [Plan.run, if_pos (by rw [hterminal]; rfl)]
    exact hlaid.runTerminal shots r
  have hother : ∀ r, p'.run shots 0 r = .ok (Buffer.tally (String.ofList
      (lastInto (StateVector.indexAfter gates 0) p.readout p.blank)) shots) := by
    intro r
    rw [Plan.run, if_neg (by simp [hterminal']), hlaid'.runShots, hreadout, hblank]
  refine ⟨p, p', _, _, hplan, hplan', hterminal, hterminal', hone, hlaid.runShots shots, hother, ?_⟩
  rw [hlaid.tally_eq_iff, hlaid.readout]

/-- A one is read into a slot, then a zero into the same. -/
def readOver : Kernel :=
  ⟨{ name := "k" }, [.leaf { name := "X", bits := [0] }, .leaf (.measure 0 0), .leaf (.measure 1 0)]⟩

def readOverIdled : Kernel :=
  ⟨{ name := "k" }, readOver.body ++ [.leaf { name := "I", bits := [0] }]⟩

/-- Its counts depend on the way it is run. -/
theorem run_ne_runShots_readOver : ∃ p p' counts counts',
    ofKernel readOver 2 20 = .ok p ∧ ofKernel readOverIdled 2 20 = .ok p' ∧
      p.terminal = true ∧ p'.terminal = false ∧ (∀ r, p.run 16 0 r = .ok counts) ∧
      (∀ r, p.runShots 16 0 r = .ok counts') ∧ (∀ r, p'.run 16 0 r = .ok counts') ∧
      counts ≠ counts' := by
  have hgates : ∀ op ∈ [{ name := "X", bits := [0] : Operation }], op.Classical := by
    intro op hop
    obtain rfl := List.mem_singleton.mp hop
    exact .one 0 (.inr rfl) rfl
  have hmeasures : ∀ op ∈ [Operation.measure 0 0, Operation.measure 1 0], op.Reads := by
    intro op hop
    simp only [List.mem_cons, List.not_mem_nil, or_false] at hop
    rcases hop with rfl | rfl <;> exact ⟨rfl, rfl⟩
  obtain ⟨p, p', counts, counts', hplan, hplan', hterminal, hterminal', hone, hshots, hidled, hiff⟩ :=
    @run_eq_runShots_iff readOver readOverIdled _ _ _ 2 20 0 rfl hgates hmeasures (by decide)
      (by decide) (by decide) (by decide) rfl rfl rfl (by decide) 16
  refine ⟨p, p', counts, counts', hplan, hplan', hterminal, hterminal', hone, hshots, hidled, ?_⟩
  intro hsame
  rcases hiff.mp hsame with hnone | hlast
  · exact absurd hnone (by decide)
  · obtain ⟨q, hq, hbit⟩ := hlast (0, 0) (by decide) (by decide)
    obtain rfl : 1 = q := Option.some.inj hq
    exact absurd hbit (by decide)

end Plan

end QuantumKernels
