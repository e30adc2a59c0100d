import QuantumKernels.Proofs.Simulator.Acceptance

/-!
# Checked runs

The simulation once more, with every index checked. A lookup outside the state, a write outside the
outcome, or a measurement without a qubit stops it altogether. On a register that lacks amplitudes gates may
stop it, which is an error of the plain simulation; nothing else does. So a run that succeeds has used no
index out of range.
-/
namespace QuantumKernels

/-- What a computation with checked indices comes to; nothing if an index was out of range. -/
abbrev Checked (α : Type) := ExceptT DeviceError Option α

namespace Checked

section

variable {α β τ : Type}

/-- The checked computation of a plain outcome, all indices in range. -/
def inside (x : Except DeviceError α) : Checked α := ExceptT.mk (some x)

/-- What was looked up, if the index was in range. -/
def found (x : Option α) : Checked α := ExceptT.mk (x.map .ok)

/-- The error that an index out of range ends a simulation with. -/
def outOfRange : DeviceError := .crash "index out of bounds"

/-- What the simulation reports. -/
def outcome (x : Checked α) : Except DeviceError α := x.run.getD (.error outOfRange)

theorem found_bind (a : α) (f : α → Checked β) : found (some a) >>= f = f a := rfl

/-- Success has used no index out of range. -/
theorem eq_inside_of_outcome {x : Checked α} {a : α} (h : x.outcome = .ok a) : x = inside (.ok a) := by
  unfold outcome at h
  cases hx : x.run with
  | none =>
    rw [hx] at h
    cases h
  | some y =>
    rw [hx] at h
    obtain rfl : y = .ok a := h
    exact hx

theorem outcome_bind {x : Checked α} {y : Except DeviceError α} {f : α → Checked β} {g : α → Except DeviceError β}
    (hx : x.outcome = y) (hf : ∀ a, y = .ok a → (f a).outcome = g a) : (x >>= f).outcome = y >>= g := by
  subst hx
  cases hrun : x.run with
  | none =>
    have hnone : x = ExceptT.mk none := hrun
    subst hnone
    rfl
  | some z =>
    have hsome : x = inside z := hrun
    subst hsome
    cases z with
    | error e => rfl
    | ok a => exact hf a rfl

/-- A loop reports what the plain one does if each step does, from states with an invariant that steps keep. -/
theorem outcome_foldlM {f : τ → α → Checked τ} {g : τ → α → Except DeviceError τ} {P : τ → Prop} {l : List α}
    (hstep : ∀ a ∈ l, ∀ t, P t → (f t a).outcome = g t a)
    (hkeep : ∀ a ∈ l, ∀ t t', P t → g t a = .ok t' → P t') {t : τ} (ht : P t) :
    (l.foldlM f t).outcome = l.foldlM g t := by
  induction l generalizing t with
  | nil => rfl
  | cons a rest ih =>
    rw [List.foldlM_cons, List.foldlM_cons]
    refine outcome_bind (hstep a List.mem_cons_self t ht) fun t' ht' => ?_
    exact ih (fun c hc => hstep c (List.mem_cons_of_mem a hc)) (fun c hc => hkeep c (List.mem_cons_of_mem a hc))
      (hkeep a List.mem_cons_self t t' ht ht')

end

/-- The vector with these amplitudes, if each can be had. -/
def tabulate (qubits : ℕ) (f : ℕ → Option Amplitude) : Option StateVector :=
  if ∀ i < 2 ^ qubits, (f i).isSome then some (.tabulate qubits fun i => (f i).getD .zero) else none

theorem tabulate_eq {qubits : ℕ} {f : ℕ → Option Amplitude} {g : ℕ → Amplitude}
    (h : ∀ i < 2 ^ qubits, f i = some (g i)) : tabulate qubits f = some (.tabulate qubits g) := by
  rw [tabulate, if_pos fun i hi => by rw [h i hi]; rfl]
  exact congrArg some (StateVector.tabulate_congr fun i hi => by rw [h i hi]; rfl)

theorem tabulate_eq_none {qubits i : ℕ} {f : ℕ → Option Amplitude} (hi : i < 2 ^ qubits) (h : f i = none) :
    tabulate qubits f = none :=
  if_neg fun hall => by simpa [h] using hall i hi

def gateAt (s : StateVector) (g : StateVector.Gate) (q i : ℕ) : Option Amplitude := do
  let own ← s.amplitudes[i]?
  let other ← s.amplitudes[i ^^^ 2 ^ q]?
  return if i.testBit q then g.set other own else g.clear own other

def apply (s : StateVector) (g : StateVector.Gate) (q : ℕ) : Option StateVector :=
  tabulate s.qubits (gateAt s g q)

/-- Pairs are looked for from the indices with the control set and the target clear, of which there are none
if both are one bit. -/
def applyControlled (s : StateVector) (g : StateVector.Gate) (control target : ℕ) : Option StateVector :=
  tabulate s.qubits fun i =>
    if control ≠ target ∧ i.testBit control then gateAt s g target i else s.amplitudes[i]?

/-- Partners are looked for from the indices with the first bit set and the second one clear, of which there
are none if the first bit is outside of all indices. -/
def exchange (s : StateVector) (a b : ℕ) : Option StateVector :=
  tabulate s.qubits fun i =>
    if a < s.qubits then s.amplitudes[StateVector.exchangeBits a b i]? else s.amplitudes[i]?

def act (s : StateVector) : StateVector.Action → List ℕ → Option StateVector
  | .single g, [q] => apply s g q
  | .controlled g, [a, b] => applyControlled s g a b
  | .exchange, [a, b] => exchange s a b
  | _, _ => some s

def actOn (r : Register) (a : StateVector.Action) (bits : List ℕ) : Checked Register := do
  return { r with state := ← found (act r.state a bits) }

/-- Applies a gate. One that is refused has not come to look at an amplitude. -/
def applyOperation (r : Register) (op : Operation) : Checked Register := do
  actOn r (← inside (StateVector.actionOn r.qubits op)) (op.bits.map Register.place)

def collapse (s : StateVector) (q : ℕ) (outcome : Bool) (norm : Float) : Option StateVector :=
  tabulate s.qubits fun i =>
    if i.testBit q == outcome then do
      let own ← s.amplitudes[i]?
      return if 0 < norm then own.divide norm else own
    else some .zero

def measure (r : Register) (q : ℕ) (random : RandomStream) : Checked (Bool × Register × RandomStream) :=
  let p := StateVector.clampUnit (r.state.probabilityOne (Register.place q))
  match random.chance? p with
  | none => throw (.crash "an outcome has no probability")
  | some (outcome, random) => do
    let state ← found (collapse r.state (Register.place q) outcome (if outcome then p else 1 - p).sqrt)
    return (outcome, { r with state }, random)

/-- The index where the probabilities first exceed a bound, which has to be one of the state. -/
def indexAbove (s : StateVector) (bound : Float) (i : ℕ) (sum : Float) : Option ℕ :=
  if i < s.amplitudes.size then do
    let sum := sum + (← s.amplitudes[i]?).normSquared
    if bound < sum then some i else indexAbove s bound (i + 1) sum
  else if 0 < s.amplitudes.size then some (s.amplitudes.size - 1) else none
termination_by s.amplitudes.size - i

def sample (s : StateVector) (r : RandomStream) : Option (ℕ × RandomStream) := do
  let (bound, r) := r.unit
  let index ← indexAbove s bound 0 0
  if index < s.amplitudes.size then some (index, r) else none

/-- An outcome with a character written into a slot that it has. -/
def write (bits : List Char) (slot : ℕ) (c : Char) : Option (List Char) :=
  if slot < bits.length then some (bits.set slot c) else none

def readIndex (p : Plan) (error : Float) (index : ℕ) (r : RandomStream) : Checked (List Char × RandomStream) :=
  p.readout.foldlM (fun (bits, r) (qubit, slot) => do
    let (bit, r) ← inside (Plan.flip error (index.testBit (Register.place qubit)) r)
    if bit then return (← found (write bits slot '1'), r) else return (bits, r)) (p.blank, r)

def step (error : Float) (t : Plan.Shot) (op : Operation) : Checked Plan.Shot := do
  if op.isMeasure then
    let qubit ← found op.bits[0]?
    let (bit, register, random) ← measure t.register qubit t.random
    let (bit, random) ← inside (Plan.flip error bit random)
    let bits ← found (write t.bits (op.slot?.getD 0) (if bit then '1' else '0'))
    return ⟨register, bits, random⟩
  else return { t with register := ← applyOperation t.register op }

def shot (p : Plan) (error : Float) (r : RandomStream) : Checked (List Char × RandomStream) := do
  let register ← inside (Register.zero p.qubits)
  let t ← p.operations.foldlM (step error) ⟨register, p.blank, r⟩
  return (t.bits, t.random)

def repeatShots (one : RandomStream → Checked (List Char × RandomStream)) :
    (shots : ℕ) → Dictionary ℕ → RandomStream → Checked (Dictionary ℕ)
  | 0, counts, _ => return counts
  | shots + 1, counts, r => do
    let (bits, r) ← one r
    repeatShots one shots (Buffer.addCount counts (String.ofList bits) 1) r

def evolve (p : Plan) : Checked Register := do
  let register ← inside (Register.zero p.qubits)
  (p.operations.filter fun op => !op.isMeasure).foldlM applyOperation register

def runTerminal (p : Plan) (shots : ℕ) (error : Float) (r : RandomStream) : Checked (Dictionary ℕ) := do
  let register ← evolve p
  repeatShots (fun r => do
    let (index, r) ← found (sample register.state r)
    readIndex p error index r) shots ∅ r

def runShots (p : Plan) (shots : ℕ) (error : Float) (r : RandomStream) : Checked (Dictionary ℕ) :=
  repeatShots (shot p error) shots ∅ r

def run (p : Plan) (shots : ℕ) (error : Float) (r : RandomStream) : Checked (Dictionary ℕ) :=
  if p.terminal then runTerminal p shots error r else runShots p shots error r

/-- What a kernel adds to a buffer. -/
def execute (s : LocalSettings) (random : RandomSource) (k : Kernel) (b : Buffer) : Checked Buffer := do
  let p ← inside (Plan.ofKernel k b.size s.maxQubits)
  return b.appendCounts (← run p s.shots s.readoutError (random.stream s.seed)).entries

section

variable {s : StateVector} {op : Operation}

theorem amplitude_found {i : ℕ} (hi : i < 2 ^ s.qubits) : s.amplitudes[i]? = some (s.amplitude i) := by
  have hsize : i < s.amplitudes.size := s.size_eq ▸ hi
  simp [StateVector.amplitude, Array.getD, hsize]

theorem amplitude_missing {i : ℕ} (hi : 2 ^ s.qubits ≤ i) : s.amplitudes[i]? = none := by
  simpa [s.size_eq] using hi

theorem tabulate_amplitude (s : StateVector) : StateVector.tabulate s.qubits s.amplitude = s := by
  obtain ⟨qubits, amplitudes, hsize⟩ := s
  simp only [StateVector.tabulate, StateVector.mk.injEq, true_and]
  refine Array.ext (by simp [hsize]) fun i _ hi => ?_
  simp [StateVector.amplitude, Array.getD, hi]

/-- A vector that is copied index by index. -/
theorem tabulate_copy {f : ℕ → Option Amplitude} (h : ∀ i < 2 ^ s.qubits, f i = s.amplitudes[i]?) :
    tabulate s.qubits f = some s := by
  rw [tabulate_eq fun i hi => (h i hi).trans (amplitude_found hi), tabulate_amplitude]

theorem gateAt_eq {g : StateVector.Gate} {q i : ℕ} (hq : q < s.qubits) (hi : i < 2 ^ s.qubits) :
    gateAt s g q i = some (s.gateAt g q i) := by
  rw [gateAt, amplitude_found hi, amplitude_found (StateVector.xor_lt hi hq)]
  rfl

/-- Outside of the state a gate finds no partner for an index. -/
theorem gateAt_missing {g : StateVector.Gate} {q i : ℕ} (hq : s.qubits ≤ q) (hi : i < 2 ^ s.qubits) :
    gateAt s g q i = none := by
  have hbit : (i ^^^ 2 ^ q).testBit q = true := by
    have hclear : i.testBit q = false :=
      Nat.testBit_lt_two_pow (hi.trans_le (Nat.pow_le_pow_right (by decide) hq))
    simp [Nat.testBit_xor, hclear]
  have hfar : 2 ^ s.qubits ≤ i ^^^ 2 ^ q :=
    (Nat.pow_le_pow_right (by decide) hq).trans (Nat.ge_two_pow_of_testBit hbit)
  rw [gateAt, amplitude_found hi, amplitude_missing hfar]
  rfl

theorem apply_eq (g : StateVector.Gate) (q : ℕ) :
    apply s g q = if q < s.qubits then some (s.apply g q) else none := by
  split
  · rename_i hq
    exact tabulate_eq fun i hi => gateAt_eq hq hi
  · rename_i hq
    exact tabulate_eq_none (Nat.two_pow_pos _) (gateAt_missing (Nat.not_lt.mp hq) (Nat.two_pow_pos _))

theorem applyControlled_eq (g : StateVector.Gate) (a b : ℕ) : applyControlled s g a b =
    if s.qubits ≤ a ∨ a = b then some s else if b < s.qubits then some (s.applyControlled g a b) else none := by
  split
  · rename_i hnone
    refine tabulate_copy fun i hi => if_neg fun hvisited => ?_
    have hfar := hnone.resolve_right hvisited.1
    rw [Nat.testBit_lt_two_pow (hi.trans_le (Nat.pow_le_pow_right (by decide) hfar))] at hvisited
    exact absurd hvisited.2 (by decide)
  · rename_i hsome
    obtain ⟨ha, hne⟩ : a < s.qubits ∧ a ≠ b := by simpa [not_or] using hsome
    split
    · rename_i hb
      refine tabulate_eq fun i hi => ?_
      simp only [hne, ne_eq, not_false_eq_true, true_and]
      split
      · exact gateAt_eq hb hi
      · exact amplitude_found hi
    · rename_i hb
      have hi : 2 ^ a < 2 ^ s.qubits := Nat.pow_lt_pow_right (by decide) ha
      refine tabulate_eq_none hi ?_
      rw [if_pos ⟨hne, Nat.testBit_two_pow_self⟩]
      exact gateAt_missing (Nat.not_lt.mp hb) hi

theorem exchange_eq (a b : ℕ) : exchange s a b =
    if s.qubits ≤ a ∨ a = b then some s else if b < s.qubits then some (s.exchange a b) else none := by
  split
  · rename_i hnone
    refine tabulate_copy fun i _ => ?_
    rcases hnone with hfar | rfl
    · exact if_neg (Nat.not_lt.mpr hfar)
    · simp [StateVector.exchangeBits]
  · rename_i hsome
    obtain ⟨ha, hne⟩ : a < s.qubits ∧ a ≠ b := by simpa [not_or] using hsome
    split
    · rename_i hb
      exact tabulate_eq fun i hi => (if_pos ha).trans (amplitude_found (StateVector.exchangeBits_lt hi ha hb))
    · rename_i hb
      refine tabulate_eq_none (Nat.pow_lt_pow_right (by decide) ha) ?_
      have hpartner : StateVector.exchangeBits a b (2 ^ a) = 2 ^ b := by
        simp [StateVector.exchangeBits, hne]
      rw [if_pos ha, hpartner]
      exact amplitude_missing (Nat.pow_le_pow_right (by decide) (Nat.not_lt.mp hb))

/-- A gate finds all it looks for, or the simulation ends. -/
theorem actOn_outcome (r : Register) (a : StateVector.Action) (bits : List ℕ) :
    (actOn r a bits).outcome = r.act a bits := by
  unfold actOn Register.act
  fun_cases act r.state a bits with
  | case1 g q =>
    rw [apply_eq, Register.reach]
    split <;> rfl
  | case2 g x y =>
    rw [applyControlled_eq, Register.reach]
    split
    · rfl
    · split <;> rfl
  | case3 x y =>
    rw [exchange_eq, Register.reach]
    split
    · rfl
    · split <;> rfl
  | case4 => simp_all [Register.reach]; rfl

theorem applyOperation_outcome (r : Register) (op : Operation) :
    (applyOperation r op).outcome = r.applyOperation op :=
  outcome_bind rfl fun a _ => actOn_outcome r a (op.bits.map Register.place)

theorem collapse_eq (q : ℕ) (outcome : Bool) (norm : Float) :
    collapse s q outcome norm = some (s.collapse q outcome norm) := by
  refine tabulate_eq fun i hi => ?_
  rw [amplitude_found hi]
  split <;> rfl

theorem measure_outcome (r : Register) (q : ℕ) (random : RandomStream) :
    (measure r q random).outcome = r.measure q random := by
  unfold measure Register.measure StateVector.measure
  dsimp only
  cases random.chance? (StateVector.clampUnit (r.state.probabilityOne (Register.place q))) with
  | none => rfl
  | some draw =>
    dsimp only
    rw [collapse_eq]
    rfl

/-- The index that is drawn is one of the state, whatever the bound. -/
theorem indexAbove_eq (s : StateVector) (bound : Float) (i : ℕ) (sum : Float) :
    indexAbove s bound i sum = some (s.indexAbove bound i sum) ∧
      s.indexAbove bound i sum < s.amplitudes.size := by
  have hsize : 0 < s.amplitudes.size := s.size_eq ▸ Nat.two_pow_pos s.qubits
  fun_induction StateVector.indexAbove s bound i sum with
  | case1 i sum hi sum' hbound =>
    rw [indexAbove, if_pos hi, amplitude_found (s.size_eq ▸ hi)]
    exact ⟨if_pos hbound, hi⟩
  | case2 i sum hi sum' hbound ih =>
    rw [indexAbove, if_pos hi, amplitude_found (s.size_eq ▸ hi)]
    exact ⟨(if_neg hbound).trans ih.1, ih.2⟩
  | case3 i sum hi =>
    rw [indexAbove, if_neg hi, if_pos hsize]
    exact ⟨rfl, Nat.sub_one_lt_of_lt hsize⟩

theorem sample_eq (s : StateVector) (r : RandomStream) : sample s r = some (s.sample r) := by
  obtain ⟨hindex, hlt⟩ := indexAbove_eq s r.unit.1 0 0
  rw [sample, StateVector.sample]
  dsimp only
  rw [hindex]
  exact if_pos hlt

end

end Checked

/-- The slots that measurements name. -/
def Kernel.measuredSlots (k : Kernel) : List ℕ :=
  (k.operations.filter Operation.isMeasure).filterMap Operation.slot?

/-- The slots that an outcome has something read into: those that measurements name, or without any
measurement one for each qubit of the register. -/
def Kernel.readSlots (k : Kernel) : List ℕ :=
  if k.operations.any Operation.isMeasure then k.measuredSlots
  else List.range (Word.wrap (widthOf (k.operations.flatMap Operation.bits)))

namespace Plan

variable {p : Plan} {k : Kernel}

/-- How a plan reads the outcomes of its kernel. -/
structure Reads (p : Plan) (k : Kernel) : Prop where
  operations : p.operations = k.operations
  measured : ∀ op ∈ k.operations, op.isMeasure = true → ∃ q slot, op.bits[0]? = some q ∧ op.slot? = some slot ∧
    slot ∈ p.readout.map (·.2)
  slots : p.readout.map (·.2) = k.readSlots
  width : p.width = widthOf k.readSlots

theorem readoutOf_eq_ok {kernel : String} {op : Operation} {e : ℕ × ℕ} (h : readoutOf kernel op = .ok e) :
    op.bits[0]? = some e.1 ∧ op.slot? = some e.2 := by
  unfold readoutOf at h
  split at h
  · cases h
  · cases h
  · rename_i slot q rest hslot hbits
    cases h
    exact ⟨by simp [hbits], hslot⟩

theorem map_slots {kernel : String} {ops : List Operation} {readout : List (ℕ × ℕ)}
    (h : List.Forall₂ (fun op e => readoutOf kernel op = .ok e) ops readout) :
    readout.map (·.2) = ops.filterMap Operation.slot? := by
  induction h with
  | nil => rfl
  | cons hread _ ih => rw [List.map_cons, List.filterMap_cons_some (readoutOf_eq_ok hread).2, ih]

theorem ofKernel_reads {size limit : ℕ} (h : ofKernel k size limit = .ok p) : p.Reads k := by
  unfold ofKernel at h
  dsimp only at h
  split at h
  · cases h
  · split at h
    · cases h
    · obtain ⟨measured, hmeasured, h⟩ := bind_eq_ok_iff.mp h
      have hall := mapM_eq_ok_iff.mp hmeasured
      cases hany : k.operations.any Operation.isMeasure with
      | false =>
        have hnone : k.operations.filter Operation.isMeasure = [] := by simpa using hany
        rw [hnone] at hall
        cases hall
        cases h
        have hslots : ((List.range (Word.wrap (widthOf (k.operations.flatMap Operation.bits)))).map
            fun q => (q, q)).map (·.2) = k.readSlots := by
          rw [List.map_map, Kernel.readSlots, hany, if_neg (by decide)]
          exact List.map_id _
        refine ⟨rfl, fun op hop hmeasure => ?_, hslots, congrArg widthOf hslots⟩
        rw [List.any_eq_false] at hany
        exact absurd hmeasure (hany op hop)
      | true =>
        obtain ⟨first, hfirst, hmeasures⟩ := List.any_eq_true.mp hany
        have hread : ∀ op ∈ k.operations, op.isMeasure = true → ∃ e ∈ measured, readoutOf k.name op = .ok e :=
          fun op hop hmeasure => exists_mem_of_forall₂ hall.flip (List.mem_filter.mpr ⟨hop, hmeasure⟩)
        obtain ⟨e, he, -⟩ := hread first hfirst hmeasures
        have hempty : measured.isEmpty = false := by simpa using List.ne_nil_of_mem he
        rw [hempty, if_neg (by decide)] at h
        cases h
        have hslots : measured.map (·.2) = k.readSlots := by
          rw [map_slots hall, Kernel.readSlots, hany, if_pos rfl, Kernel.measuredSlots]
        refine ⟨rfl, fun op hop hmeasure => ?_, hslots, congrArg widthOf hslots⟩
        obtain ⟨e, he, hread⟩ := hread op hop hmeasure
        obtain ⟨hqubit, hslot⟩ := readoutOf_eq_ok hread
        exact ⟨e.1, e.2, hqubit, hslot, List.mem_map_of_mem he⟩

end Plan

namespace Checked

section

variable {p : Plan} {k : Kernel} {error : Float} {op : Operation} {t : Plan.Shot}

theorem write_eq {bits : List Char} {slot : ℕ} (hslot : slot < bits.length) (c : Char) :
    write bits slot c = some (bits.set slot c) := if_pos hslot

/-- Each slot that is read has a place in the outcome. -/
theorem readIndex_outcome (hslots : ∀ e ∈ p.readout, e.2 < p.width) (index : ℕ) (r : RandomStream) :
    (readIndex p error index r).outcome = p.readIndex error index r := by
  refine outcome_foldlM (P := fun t => t.1.length = p.width) ?_ ?_ List.length_replicate
  · rintro e he ⟨bits, r⟩ hlength
    refine outcome_bind rfl fun flipped _ => ?_
    dsimp only at hlength ⊢
    split
    · rw [write_eq (hlength ▸ hslots e he)]
      rfl
    · rfl
  · rintro e he ⟨bits, r⟩ t' hlength h
    obtain ⟨flipped, -, h⟩ := bind_eq_ok_iff.mp h
    cases h
    dsimp only at hlength ⊢
    split
    · rw [List.length_set, hlength]
    · exact hlength

theorem step_outcome (hreads : op.isMeasure = true → ∃ q slot, op.bits[0]? = some q ∧ op.slot? = some slot ∧
    slot < t.bits.length) : (step error t op).outcome = Plan.Shot.step error t op := by
  unfold step Plan.Shot.step
  split
  · rename_i hmeasure
    obtain ⟨q, slot, hq, hslot, hlt⟩ := hreads hmeasure
    have hhead : op.bits.headD 0 = q := by simp [List.headD_eq_head?_getD, List.head?_eq_getElem?, hq]
    rw [hq, hhead, hslot, found_bind]
    refine outcome_bind (measure_outcome t.register q t.random) fun o _ => ?_
    refine outcome_bind rfl fun flipped _ => ?_
    dsimp only
    rw [Option.getD_some, write_eq hlt]
    rfl
  · exact outcome_bind (applyOperation_outcome t.register op) fun _ _ => rfl

theorem length_step {t' : Plan.Shot} (h : Plan.Shot.step error t op = .ok t') : t'.bits.length = t.bits.length := by
  unfold Plan.Shot.step at h
  split at h
  · obtain ⟨o, -, h⟩ := bind_eq_ok_iff.mp h
    obtain ⟨flipped, -, h⟩ := bind_eq_ok_iff.mp h
    cases h
    exact List.length_set
  · obtain ⟨s, -, h⟩ := bind_eq_ok_iff.mp h
    cases h
    rfl

theorem shot_outcome (hp : p.Reads k) (r : RandomStream) : (shot p error r).outcome = p.shot error r := by
  have hwidth : ∀ slot ∈ p.readout.map (·.2), slot < p.width := by
    rw [hp.width, hp.slots]
    exact fun _ => lt_widthOf
  refine outcome_bind rfl fun register _ => outcome_bind ?_ fun _ _ => rfl
  refine outcome_foldlM (P := fun t => t.bits.length = p.width) ?_ ?_ List.length_replicate
  · intro op hop t ht
    refine step_outcome fun hmeasure => ?_
    obtain ⟨q, slot, hq, hslot, hmem⟩ := hp.measured op (hp.operations ▸ hop) hmeasure
    exact ⟨q, slot, hq, hslot, ht ▸ hwidth slot hmem⟩
  · intro op _ t t' ht h
    rw [length_step h, ht]

theorem repeatShots_outcome {one : RandomStream → Checked (List Char × RandomStream)}
    {one' : RandomStream → Except DeviceError (List Char × RandomStream)} (hone : ∀ r, (one r).outcome = one' r)
    (shots : ℕ) (counts : Dictionary ℕ) (r : RandomStream) :
    (repeatShots one shots counts r).outcome = Plan.repeatShots one' shots counts r := by
  induction shots generalizing counts r with
  | zero => rfl
  | succ shots ih => exact outcome_bind (hone r) fun o _ => ih _ o.2

theorem evolve_outcome (p : Plan) : (evolve p).outcome = p.evolve :=
  outcome_bind rfl fun _ _ => outcome_foldlM (P := fun _ => True) (fun op _ r _ => applyOperation_outcome r op)
    (fun _ _ _ _ _ _ => trivial) trivial

theorem run_outcome (hp : p.Reads k) (shots : ℕ) (r : RandomStream) :
    (run p shots error r).outcome = p.run shots error r := by
  unfold run Plan.run
  split
  · have hslots : ∀ e ∈ p.readout, e.2 < p.width := by
      intro e he
      rw [hp.width, ← hp.slots]
      exact lt_widthOf (List.mem_map_of_mem he)
    refine outcome_bind (evolve_outcome p) fun register _ => repeatShots_outcome (fun r => ?_) shots ∅ r
    rw [sample_eq, found_bind]
    exact readIndex_outcome hslots _ _
  · exact repeatShots_outcome (shot_outcome hp) shots ∅ r

/-- An execution reports what the checked one does. -/
theorem execute_outcome (s : LocalSettings) (random : RandomSource) (k : Kernel) (b : Buffer) :
    (execute s random k b).outcome = s.execute random k b := by
  refine outcome_bind rfl fun p hp => ?_
  exact outcome_bind (run_outcome (Plan.ofKernel_reads hp) s.shots _) fun _ _ => rfl

end

end Checked

end QuantumKernels
