import QuantumKernels.Proofs.Simulator.Register
import QuantumKernels.Proofs.Simulator.Unit

/-!
# Basis states

The gates `I`, `X`, `CNOT` and `Swap` take basis states to basis states. Reading a qubit of a
basis state gives its bit and leaves the state as it is, and drawing an index gives the index
of the state, whatever the random words are.
-/
namespace QuantumKernels

/-- A gate that permutes the basis states: one of `I`, `X`, `CNOT` and `Swap` on distinct qubits. -/
inductive Operation.Classical (op : Operation) : Prop
  | one (q : ℕ) (hname : op.name = "I" ∨ op.name = "X") (hbits : op.bits = [q])
  | two (a b : ℕ) (hname : op.name = "CNOT" ∨ op.name = "Swap") (hbits : op.bits = [a, b])
    (hne : a ≠ b)

/-- The basis index that such a gate makes of another. -/
def Operation.onIndex (op : Operation) (i : ℕ) : ℕ :=
  match op.name, op.bits with
  | "X", [q] => i ^^^ 2 ^ q
  | "CNOT", [control, target] => if i.testBit control then i ^^^ 2 ^ target else i
  | "Swap", [a, b] => StateVector.exchangeBits a b i
  | _, _ => i

theorem RandomStream.chance?_one (r : RandomStream) : r.chance? 1 = some (true, r) := by
  have hcertain : ((1 : Float) == 1) = true := by decide +kernel
  simp [chance?, hcertain]

theorem RandomStream.chance?_zero {p : Float} (h : p = 0 ∨ p = Scalar.neutral) (r : RandomStream) :
    r.chance? p = some (false, r.next.2) := by
  have hnot : (p == 1) = false := by rcases h with rfl | rfl <;> decide +kernel
  have hrange : 0 ≤ p ∧ p < 1 := by rcases h with rfl | rfl <;> decide +kernel
  have hbound : (p * Float.ofNat (2 ^ 64)).toUInt64 = 0 := by rcases h with rfl | rfl <;> decide +kernel
  rw [chance?, hnot, if_neg (by decide), if_pos hrange, hbound]
  simp

namespace StateVector

/-- The state in which only the index `i` has an amplitude. -/
def basis (n i : ℕ) : StateVector := tabulate n fun j => if j = i then .one else .zero

theorem amplitude_basis {n i j : ℕ} (hj : j < 2 ^ n) :
    (basis n i).amplitude j = if j = i then .one else .zero := amplitude_tabulate hj

theorem tabulate_congr {n : ℕ} {f g : ℕ → Amplitude} (h : ∀ j < 2 ^ n, f j = g j) :
    tabulate n f = tabulate n g := by
  have hfun : (fun j : Fin (2 ^ n) => f j) = fun j : Fin (2 ^ n) => g j := funext fun j => h j j.2
  simp only [tabulate, hfun]

theorem xor_lt {n j q : ℕ} (hj : j < 2 ^ n) (hq : q < n) : j ^^^ 2 ^ q < 2 ^ n :=
  Nat.xor_lt_two_pow hj (Nat.pow_lt_pow_right (by decide) hq)

theorem xor_eq_iff (i j m : ℕ) : j ^^^ m = i ↔ j = i ^^^ m := by
  constructor
  · rintro rfl
    simp
  · rintro rfl
    simp

theorem gateAt_x (s : StateVector) (q j : ℕ) : s.gateAt .x q j = s.amplitude (j ^^^ 2 ^ q) := by
  unfold gateAt
  split <;> rfl

theorem apply_x_basis {n q : ℕ} (hq : q < n) (i : ℕ) :
    (basis n i).apply .x q = basis n (i ^^^ 2 ^ q) := by
  refine tabulate_congr (n := n) fun j hj => ?_
  rw [gateAt_x, amplitude_basis (xor_lt hj hq)]
  simp only [xor_eq_iff]

/-- A controlled exchange leaves the control bit alone. -/
theorem applyControlled_x_basis {n a b : ℕ} (hb : b < n) (hne : a ≠ b) (i : ℕ) :
    (basis n i).applyControlled .x a b = basis n (if i.testBit a then i ^^^ 2 ^ b else i) := by
  refine tabulate_congr (n := n) fun j hj => ?_
  have hcontrol : ∀ k : ℕ, (k ^^^ 2 ^ b).testBit a = k.testBit a := by
    intro k
    simp [Nat.testBit_xor, hne.symm]
  rw [gateAt_x, amplitude_basis (xor_lt hj hb), amplitude_basis hj]
  simp only [xor_eq_iff]
  by_cases hi : i.testBit a = true
  · by_cases hja : j.testBit a = true
    · simp [hi, hja]
    · have hji : j ≠ i := by rintro rfl; exact hja hi
      have hjx : j ≠ i ^^^ 2 ^ b := by rintro rfl; exact hja (by rw [hcontrol, hi])
      simp [hi, hja, hji, hjx]
  · by_cases hja : j.testBit a = true
    · have hji : j ≠ i := by rintro rfl; exact hi hja
      have hjx : j ≠ i ^^^ 2 ^ b := by rintro rfl; exact hi (by rw [← hcontrol, hja])
      simp [hi, hja, hji, hjx]
    · simp [hi, hja]

theorem exchangeBits_involutive (a b i : ℕ) : exchangeBits a b (exchangeBits a b i) = i := by
  by_cases hsame : i.testBit a = i.testBit b
  · simp [exchangeBits, hsame]
  · have hne : a ≠ b := by
      rintro rfl
      exact hsame rfl
    have hexchanged : exchangeBits a b i = i ^^^ 2 ^ a ^^^ 2 ^ b := by simp [exchangeBits, hsame]
    have ha : (i ^^^ 2 ^ a ^^^ 2 ^ b).testBit a = !i.testBit a := by
      simp [Nat.testBit_xor, hne.symm]
    have hb : (i ^^^ 2 ^ a ^^^ 2 ^ b).testBit b = !i.testBit b := by
      simp [Nat.testBit_xor, hne]
    have hback : i ^^^ 2 ^ a ^^^ 2 ^ b ^^^ 2 ^ a ^^^ 2 ^ b = i := by
      rw [Nat.xor_right_comm i, Nat.xor_assoc, Nat.xor_assoc, Nat.xor_assoc]
      simp
    rw [hexchanged, exchangeBits, ha, hb, hback]
    simp [hsame]

theorem exchangeBits_lt {n a b j : ℕ} (hj : j < 2 ^ n) (ha : a < n) (hb : b < n) :
    exchangeBits a b j < 2 ^ n := by
  unfold exchangeBits
  split
  · exact hj
  · exact xor_lt (xor_lt hj ha) hb

theorem exchange_basis {n a b : ℕ} (ha : a < n) (hb : b < n) (i : ℕ) :
    (basis n i).exchange a b = basis n (exchangeBits a b i) := by
  refine tabulate_congr (n := n) fun j hj => ?_
  rw [amplitude_basis (exchangeBits_lt hj ha hb)]
  have hiff : exchangeBits a b j = i ↔ j = exchangeBits a b i := by
    constructor
    · rintro rfl
      rw [exchangeBits_involutive]
    · rintro rfl
      rw [exchangeBits_involutive]
  simp only [hiff]

/-- Gates of the kind apply to basis states without fail. -/
theorem applyOperation_basis {n : ℕ} {op : Operation} (h : op.Classical)
    (hbits : ∀ q ∈ op.bits, q < n) (i : ℕ) :
    (basis n i).applyOperation op = .ok (basis n (op.onIndex i)) := by
  have hinside : op.bits.find? (fun q => (basis n i).qubits ≤ q) = none := by
    refine List.find?_eq_none.mpr fun q hq => ?_
    have hlt : q < (basis n i).qubits := hbits q hq
    simpa using hlt
  unfold applyOperation actionOn
  rw [hinside]
  cases h with
  | one q hname hbits' =>
    have hq : q < n := hbits q (by simp [hbits'])
    rcases hname with hname | hname
    · simp [hbits', hname, takesTwo, action, act, bind, Except.bind, pure, Except.pure, Operation.onIndex]
    · simp [hbits', hname, takesTwo, action, act, bind, Except.bind, pure, Except.pure, Operation.onIndex,
        apply_x_basis hq]
  | two a b hname hbits' hne =>
    have ha : a < n := hbits a (by simp [hbits'])
    have hb : b < n := hbits b (by simp [hbits'])
    rcases hname with hname | hname
    · simp [hbits', hname, takesTwo, action, act, bind, Except.bind, pure, Except.pure, Operation.onIndex, hne,
        applyControlled_x_basis hb hne]
    · simp [hbits', hname, takesTwo, action, act, bind, Except.bind, pure, Except.pure, Operation.onIndex, hne,
        exchange_basis ha hb]

theorem onIndex_lt {n i : ℕ} {op : Operation} (h : op.Classical) (hbits : ∀ q ∈ op.bits, q < n)
    (hi : i < 2 ^ n) : op.onIndex i < 2 ^ n := by
  cases h with
  | one q hname hbits' =>
    have hq : q < n := hbits q (by simp [hbits'])
    rcases hname with hname | hname
    · simpa [Operation.onIndex, hname, hbits'] using hi
    · simpa [Operation.onIndex, hname, hbits'] using xor_lt hi hq
  | two a b hname hbits' hne =>
    have ha : a < n := hbits a (by simp [hbits'])
    have hb : b < n := hbits b (by simp [hbits'])
    rcases hname with hname | hname
    · simp only [Operation.onIndex, hname, hbits']
      split
      · exact xor_lt hi hb
      · exact hi
    · simpa [Operation.onIndex, hname, hbits'] using exchangeBits_lt hi ha hb

/-- The basis index after some gates, from the left. -/
def indexAfter (gates : List Operation) (i : ℕ) : ℕ := gates.foldl (fun i op => op.onIndex i) i

theorem indexAfter_lt {n : ℕ} {gates : List Operation} (h : ∀ op ∈ gates, op.Classical)
    (hbits : ∀ op ∈ gates, ∀ q ∈ op.bits, q < n) {i : ℕ} (hi : i < 2 ^ n) :
    indexAfter gates i < 2 ^ n := by
  induction gates generalizing i with
  | nil => exact hi
  | cons op rest ih =>
    exact ih (fun o ho => h o (by simp [ho])) (fun o ho => hbits o (by simp [ho]))
      (onIndex_lt (h op (by simp)) (hbits op (by simp)) hi)

/-- Probabilities add up to that of the only index with an amplitude. Without it the sum is zero, which may
be the zero that sums start from. -/
theorem foldl_probability (q i k : ℕ) : ∃ sum : Float,
    ((List.range k).map fun j => if j = i then Amplitude.one else .zero).foldl
        (fun (sum, j) a => (if Nat.testBit j q then sum + a.normSquared else sum, j + 1))
        ((Scalar.neutral : Float), 0) = (sum, k) ∧
      if i < k ∧ i.testBit q then sum = 1 else sum = 0 ∨ sum = Scalar.neutral := by
  have hone : ∀ sum : Float, sum = 0 ∨ sum = Scalar.neutral → sum + Amplitude.one.normSquared = 1 := by
    rintro sum (rfl | rfl) <;> decide +kernel
  have hzero : ∀ sum : Float, sum = 0 ∨ sum = Scalar.neutral → sum + Amplitude.zero.normSquared = 0 := by
    rintro sum (rfl | rfl) <;> decide +kernel
  have hkeep : (1 : Float) + Amplitude.zero.normSquared = 1 := by decide +kernel
  induction k with
  | zero => exact ⟨Scalar.neutral, rfl, by simp⟩
  | succ k ih =>
    obtain ⟨sum, hfold, hsum⟩ := ih
    rw [List.range_succ, List.map_append, List.foldl_append, hfold]
    refine ⟨if k.testBit q then sum + (if k = i then Amplitude.one else .zero).normSquared else sum, rfl, ?_⟩
    by_cases hcounted : i < k ∧ i.testBit q
    · rw [if_pos hcounted] at hsum
      have hne : k ≠ i := Nat.ne_of_gt hcounted.1
      rw [if_pos ⟨Nat.lt_succ_of_lt hcounted.1, hcounted.2⟩, hsum]
      simp [hne, hkeep]
    · rw [if_neg hcounted] at hsum
      by_cases hki : k = i
      · subst hki
        cases hq : k.testBit q with
        | true => simp [hone sum hsum]
        | false => simpa using hsum
      · have hnot : ¬ (i < k + 1 ∧ i.testBit q) := fun h => hcounted ⟨by omega, h.2⟩
        rw [if_neg hnot]
        cases k.testBit q with
        | true => simp [hki, hzero sum hsum]
        | false => simpa using hsum

theorem probabilityOne_basis {n i : ℕ} (hi : i < 2 ^ n) (q : ℕ) :
    if i.testBit q then (basis n i).probabilityOne q = 1
    else (basis n i).probabilityOne q = 0 ∨ (basis n i).probabilityOne q = Scalar.neutral := by
  have hlist : (basis n i).amplitudes.toList =
      (List.range (2 ^ n)).map fun j => if j = i then Amplitude.one else .zero := by
    simp only [basis, tabulate, Array.toList_ofFn]
    rw [List.ofFn_eq_map, ← List.map_coe_finRange_eq_range, List.map_map]
    rfl
  obtain ⟨sum, hfold, hsum⟩ := foldl_probability q i (2 ^ n)
  rw [← hlist] at hfold
  rw [probabilityOne, ← Array.foldl_toList, hfold]
  simpa [hi] using hsum

/-- Collapsing onto the outcome that is certain changes nothing. -/
theorem collapse_basis (n i q : ℕ) : (basis n i).collapse q (i.testBit q) 1 = basis n i := by
  refine tabulate_congr (n := n) fun j hj => ?_
  have hpos : (0 : Float) < 1 := by decide +kernel
  have hone : Amplitude.one.divide 1 = .one := by decide +kernel
  have hzero : Amplitude.zero.divide 1 = .zero := by decide +kernel
  rw [if_pos hpos, amplitude_basis hj]
  by_cases hji : j = i
  · simp [hji, hone]
  · simp [hji, hzero]

/-- Reading a qubit of a basis state gives its bit and leaves the state. -/
theorem measure_basis {n i : ℕ} (hi : i < 2 ^ n) (q : ℕ) (r : RandomStream) :
    ∃ r', (basis n i).measure q r = .ok (i.testBit q, basis n i, r') := by
  have hstate := collapse_basis n i q
  have hprobability := probabilityOne_basis hi q
  cases hq : i.testBit q with
  | true =>
    have hclamp : clampUnit 1 = 1 := by decide +kernel
    have hroot : (1 : Float).sqrt = 1 := by decide +kernel
    rw [hq] at hstate hprobability
    rw [if_pos rfl] at hprobability
    refine ⟨r, ?_⟩
    simp [measure, hprobability, hclamp, RandomStream.chance?_one, hroot, hstate]
  | false =>
    have hclamp : ∀ p : Float, p = 0 ∨ p = Scalar.neutral → clampUnit p = p := by
      rintro p (rfl | rfl) <;> decide +kernel
    have hroot : ∀ p : Float, p = 0 ∨ p = Scalar.neutral → ((1 : Float) - p).sqrt = 1 := by
      rintro p (rfl | rfl) <;> decide +kernel
    rw [hq] at hstate hprobability
    rw [if_neg (by decide)] at hprobability
    refine ⟨r.next.2, ?_⟩
    simp [measure, hclamp _ hprobability, RandomStream.chance?_zero hprobability, hroot _ hprobability, hstate]

/-- The sum of the probabilities first exceeds a bound in `[0, 1)` at the index of the state. -/
theorem indexAbove_basis {n i : ℕ} (hi : i < 2 ^ n) {bound : Float} (hlow : ¬ bound < 0)
    (hhigh : bound < 1) {k : ℕ} (hk : k ≤ i) : (basis n i).indexAbove bound k 0 = i := by
  have hone : (0 : Float) + Amplitude.one.normSquared = 1 := by decide +kernel
  have hzero : (0 : Float) + Amplitude.zero.normSquared = 0 := by decide +kernel
  have hk' : k < 2 ^ n := by omega
  have hsize : k < (basis n i).amplitudes.size := by
    rw [(basis n i).size_eq]
    exact hk'
  rw [indexAbove, if_pos hsize, amplitude_basis hk']
  by_cases hki : k = i
  · simp [hki, hone, hhigh]
  · have hnext := indexAbove_basis hi hlow hhigh (k := k + 1) (by omega)
    simp [hki, hzero, hlow, hnext]
termination_by i - k

/-- Whatever the random words are, the index of the state is drawn. -/
theorem sample_basis {n i : ℕ} (hi : i < 2 ^ n) (r : RandomStream) :
    ∃ r', (basis n i).sample r = (i, r') := by
  obtain ⟨hlow, hhigh⟩ := r.unit_bounds
  refine ⟨r.unit.2, ?_⟩
  change ((basis n i).indexAbove r.unit.1 0 0, r.unit.2) = (i, r.unit.2)
  rw [indexAbove_basis hi hlow hhigh (Nat.zero_le i)]

end StateVector

namespace Register

/-- The register whose state has the index `i` only. -/
def basis (n i : ℕ) : Register := ⟨n, .basis n i⟩

variable {n i : ℕ}

theorem whole_basis (hheld : n ≤ mostHeld) : (basis n i).Whole := ⟨hheld, rfl⟩

theorem zero_eq_basis (hheld : n ≤ mostHeld) : zero n = .ok (basis n 0) := zero_of_held hheld

theorem applyOperation_basis (hheld : n ≤ mostHeld) {op : Operation} (h : op.Classical)
    (hbits : ∀ q ∈ op.bits, q < n) : (basis n i).applyOperation op = .ok (basis n (op.onIndex i)) := by
  have hstate : (basis n i).state.applyOperation op = .ok (.basis n (op.onIndex i)) :=
    StateVector.applyOperation_basis h hbits i
  rw [(whole_basis hheld).applyOperation, hstate]
  rfl

/-- Gates of the kind take a basis state to the basis state of the index after them. -/
theorem foldlM_applyOperation_basis (hheld : n ≤ mostHeld) {gates : List Operation}
    (h : ∀ op ∈ gates, op.Classical) (hbits : ∀ op ∈ gates, ∀ q ∈ op.bits, q < n) :
    gates.foldlM applyOperation (basis n i) = .ok (basis n (StateVector.indexAfter gates i)) := by
  induction gates generalizing i with
  | nil => rfl
  | cons op rest ih =>
    rw [List.foldlM_cons, applyOperation_basis hheld (h op (by simp)) (hbits op (by simp))]
    exact ih (fun o ho => h o (by simp [ho])) (fun o ho => hbits o (by simp [ho]))

theorem measure_basis (hi : i < 2 ^ n) {q : ℕ} (hplace : place q = q) (r : RandomStream) :
    ∃ r', (basis n i).measure q r = .ok (i.testBit q, basis n i, r') := by
  obtain ⟨r', hstate⟩ := StateVector.measure_basis hi q r
  refine ⟨r', ?_⟩
  rw [measure_eq hplace]
  change ((StateVector.basis n i).measure q r).map _ = _
  rw [hstate]
  rfl

end Register

end QuantumKernels
