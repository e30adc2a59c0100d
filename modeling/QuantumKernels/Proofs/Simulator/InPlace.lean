import QuantumKernels.Proofs.Simulator.Acceptance
import Mathlib.Data.Nat.Bitwise

/-!
# Gates in place

A gate may also overwrite the amplitudes while it goes over them. It comes to each pair of indices
once, at one of the two, and finds both as they were at first. So what it leaves is made of old
amplitudes only, index by index. A gate that is refused has overwritten nothing.
-/
namespace QuantumKernels

namespace StateVector

theorem and_two_pow_beq_zero (i q : ℕ) : (i &&& 2 ^ q == 0) = !i.testBit q := by
  rw [Nat.and_two_pow]
  cases i.testBit q <;> simp

theorem and_two_pow_bne_zero (i q : ℕ) : (i &&& 2 ^ q != 0) = i.testBit q := by
  rw [bne, and_two_pow_beq_zero, Bool.not_not]

theorem or_two_pow_of_clear {i q : ℕ} (h : i.testBit q = false) : i ||| 2 ^ q = i ^^^ 2 ^ q := by
  refine Nat.eq_of_testBit_eq fun k => ?_
  rw [Nat.testBit_or, Nat.testBit_xor, Nat.testBit_two_pow]
  by_cases hk : q = k
  · simp [← hk, h]
  · simp [hk]

theorem xor_two_pow_twice (i q : ℕ) : i ^^^ 2 ^ q ^^^ 2 ^ q = i := by simp

theorem testBit_xor_two_pow_self (i q : ℕ) : (i ^^^ 2 ^ q).testBit q = !i.testBit q := by
  simp [Nat.testBit_xor]

theorem testBit_xor_two_pow_of_ne {p q : ℕ} (h : p ≠ q) (i : ℕ) : (i ^^^ 2 ^ q).testBit p = i.testBit p := by
  simp [Nat.testBit_xor, h.symm]

theorem exchangeBits_of_same {a b i : ℕ} (h : i.testBit a = i.testBit b) : exchangeBits a b i = i := by
  rw [exchangeBits, h, if_pos (beq_self_eq_true _)]

/-- An index with two bits exchanged, bit by bit. -/
theorem testBit_exchangeBits (a b i k : ℕ) :
    (exchangeBits a b i).testBit k = i.testBit (Equiv.swap a b k) := by
  rw [Equiv.swap_apply_def]
  by_cases hsame : i.testBit a = i.testBit b
  · rw [exchangeBits_of_same hsame]
    split_ifs with hka hkb
    · rw [hka, hsame]
    · rw [hkb, hsame]
    · rfl
  · have hne : a ≠ b := by
      rintro rfl
      exact hsame rfl
    have hflip : i.testBit b = !i.testBit a := by
      revert hsame
      cases i.testBit a <;> cases i.testBit b <;> decide
    rw [exchangeBits, if_neg (by simpa using hsame), Nat.testBit_xor, Nat.testBit_xor,
      Nat.testBit_two_pow, Nat.testBit_two_pow]
    split_ifs with hka hkb
    · simp [hka, hne.symm, hflip]
    · simp [hkb, hne, hflip]
    · simp [Ne.symm hka, Ne.symm hkb]

/-- Work on one vector of amplitudes; what is overwritten before a failure stays so. -/
abbrev InPlace := ExceptT DeviceError (StateM (Array Amplitude))

namespace InPlace

/-- Overwrites the amplitudes at two indices by what a gate makes of them. -/
def overwrite (g : Gate) (i j : ℕ) (a : Array Amplitude) : Array Amplitude :=
  let own := a.getD i .zero
  let other := a.getD j .zero
  (a.setIfInBounds i (g.clear own other)).setIfInBounds j (g.set own other)

/-- One turn of a sweep: an index that is visited is overwritten together with its partner. -/
def turn (visits : ℕ → Bool) (partner : ℕ → ℕ) (g : Gate) (a : Array Amplitude) (i : ℕ) : Array Amplitude :=
  if visits i then overwrite g i (partner i) a else a

/-- Goes over all indices in ascending order. -/
def sweep (visits : ℕ → Bool) (partner : ℕ → ℕ) (g : Gate) (a : Array Amplitude) : Array Amplitude :=
  (List.range a.size).foldl (turn visits partner g) a

def pairs (g : Gate) (q : ℕ) : Array Amplitude → Array Amplitude :=
  sweep (fun i => i &&& 2 ^ q == 0) (fun i => i ||| 2 ^ q) g

def controlledPairs (g : Gate) (control target : ℕ) : Array Amplitude → Array Amplitude :=
  sweep (fun i => i &&& 2 ^ control != 0 && i &&& 2 ^ target == 0) (fun i => i ||| 2 ^ target) g

def swaps (a b : ℕ) : Array Amplitude → Array Amplitude :=
  sweep (fun i => i &&& 2 ^ a != 0 && i &&& 2 ^ b == 0) (fun i => i.ldiff (2 ^ a) ||| 2 ^ b) .x

def act : Action → List ℕ → InPlace Unit
  | .single g, [q] => modify (pairs g q)
  | .controlled g, [control, target] => modify (controlledPairs g control target)
  | .exchange, [a, b] => modify (swaps a b)
  | _, _ => pure ()

/-- Applies a gate to the qubits it names, which are checked before its angles are read. -/
def applyOperation (qubits : ℕ) (op : Operation) : InPlace Unit := do
  match op.bits.find? fun q => qubits ≤ q with
  | some q => throw (.execution s!"{op.name} targets qubit {q} of a {qubits}-qubit register")
  | none =>
    let arity := if takesTwo op.name then 2 else 1
    if op.bits.length = arity ∧ op.bits.Nodup then
      act (← action op) op.bits
    else throw (.execution (s!"{op.name} expects {arity} distinct qubits, got " ++ Text.describeList toString op.bits))

theorem getD_overwrite {g : Gate} {i j k : ℕ} {a : Array Amplitude} (hi : i < a.size) (hj : j < a.size) :
    (overwrite g i j a).getD k .zero =
      if j = k then g.set (a.getD i .zero) (a.getD j .zero)
      else if i = k then g.clear (a.getD i .zero) (a.getD j .zero) else a.getD k .zero := by
  simp only [overwrite, Array.getD_eq_getD_getElem?, Array.getElem?_setIfInBounds,
    Array.size_setIfInBounds, if_pos hi, if_pos hj]
  split_ifs <;> rfl

/-- The indices below a size in pairs, of which one index each is visited. -/
structure Pairing (visits : ℕ → Bool) (partner mate : ℕ → ℕ) (size : ℕ) : Prop where
  partner_eq : ∀ i, visits i → partner i = mate i
  mate_mate : ∀ i, mate (mate i) = i
  once : ∀ i, visits i → visits (mate i) = false
  lt : ∀ i < size, mate i < size

/-- What a sweep makes of the amplitudes `old`. -/
def mixed (visits : ℕ → Bool) (mate : ℕ → ℕ) (g : Gate) (old : ℕ → Amplitude) (i : ℕ) : Amplitude :=
  if visits i then g.clear (old i) (old (mate i))
  else if visits (mate i) then g.set (old (mate i)) (old i)
  else old i

/-- The visits in the first `n` turns of a sweep. -/
def visitsBelow (visits : ℕ → Bool) (n i : ℕ) : Bool := visits i && i < n

theorem visitsBelow_succ (visits : ℕ → Bool) (n i : ℕ) :
    visitsBelow visits (n + 1) i = if i = n then visits n else visitsBelow visits n i := by
  split_ifs with h
  · simp [visitsBelow, h]
  · have hlt : i < n + 1 ↔ i < n := by omega
    simp only [visitsBelow, hlt]

namespace Pairing

variable {visits : ℕ → Bool} {partner mate : ℕ → ℕ} {g : Gate} {a : Array Amplitude}

/-- The invariant of a sweep: what has been visited is made of old amplitudes, and all else is old. -/
theorem foldl_turn (h : Pairing visits partner mate a.size) {n : ℕ} (hn : n ≤ a.size) :
    ((List.range n).foldl (turn visits partner g) a).size = a.size ∧
    ∀ k, ((List.range n).foldl (turn visits partner g) a).getD k .zero =
      mixed (visitsBelow visits n) mate g (a.getD · .zero) k := by
  induction n with
  | zero => simp [mixed, visitsBelow]
  | succ n ih =>
    obtain ⟨hsize, hturned⟩ := ih (Nat.le_of_succ_le hn)
    rw [List.range_succ, List.foldl_append, List.foldl_cons, List.foldl_nil]
    generalize (List.range n).foldl (turn visits partner g) a = b at hsize hturned ⊢
    cases hvisit : visits n with
    | false =>
      have hsame : visitsBelow visits (n + 1) = visitsBelow visits n := by
        funext i
        rw [visitsBelow_succ, hvisit]
        split_ifs with hi
        · simp [visitsBelow, hi]
        · rfl
      rw [turn, hvisit, if_neg (by decide), hsame]
      exact ⟨hsize, hturned⟩
    | true =>
      have hother := h.once n hvisit
      -- neither of the two indices has been overwritten in an earlier turn
      have hold : b.getD n .zero = a.getD n .zero ∧ b.getD (mate n) .zero = a.getD (mate n) .zero := by
        simp [hturned, mixed, visitsBelow, hother, h.mate_mate]
      rw [turn, if_pos hvisit, h.partner_eq n hvisit]
      refine ⟨by simp [overwrite, hsize], fun k => ?_⟩
      rw [getD_overwrite (hsize ▸ hn) (hsize ▸ h.lt n hn), hold.1, hold.2]
      split_ifs with hset hclear
      · subst hset
        simp [mixed, visitsBelow, hother, h.mate_mate, hvisit]
      · subst hclear
        simp [mixed, visitsBelow, hvisit]
      · have hmate : mate k ≠ n := fun hk => hset (by rw [← hk, h.mate_mate])
        rw [hturned, mixed, mixed, visitsBelow_succ, visitsBelow_succ, if_neg (Ne.symm hclear), if_neg hmate]

/-- A sweep makes every amplitude of old ones. -/
theorem sweep_eq (h : Pairing visits partner mate a.size) :
    (sweep visits partner g a).size = a.size ∧
    ∀ k < a.size, (sweep visits partner g a).getD k .zero = mixed visits mate g (a.getD · .zero) k := by
  obtain ⟨hsize, hturned⟩ := h.foldl_turn (g := g) le_rfl
  refine ⟨hsize, fun k hk => ?_⟩
  have hall : ∀ i < a.size, visitsBelow visits a.size i = visits i := fun i hi => by simp [visitsBelow, hi]
  rw [sweep, hturned, mixed, mixed, hall k hk, hall (mate k) (h.lt k hk)]

end Pairing

theorem pairing_pairs {n q : ℕ} (hq : q < n) :
    Pairing (fun i => i &&& 2 ^ q == 0) (fun i => i ||| 2 ^ q) (fun i => i ^^^ 2 ^ q) (2 ^ n) where
  partner_eq i hi := or_two_pow_of_clear (by simpa [and_two_pow_beq_zero] using hi)
  mate_mate i := xor_two_pow_twice i q
  once i hi := by
    simp only [and_two_pow_beq_zero, testBit_xor_two_pow_self] at hi ⊢
    rw [hi]
    rfl
  lt i hi := xor_lt hi hq

theorem pairing_controlledPairs {n target : ℕ} (control : ℕ) (htarget : target < n) :
    Pairing (fun i => i &&& 2 ^ control != 0 && i &&& 2 ^ target == 0) (fun i => i ||| 2 ^ target)
      (fun i => i ^^^ 2 ^ target) (2 ^ n) where
  partner_eq i hi := by
    simp only [and_two_pow_beq_zero, and_two_pow_bne_zero, Bool.and_eq_true] at hi
    exact or_two_pow_of_clear (by simpa using hi.2)
  mate_mate i := xor_two_pow_twice i target
  once i hi := by
    simp only [and_two_pow_beq_zero, and_two_pow_bne_zero, testBit_xor_two_pow_self, Bool.and_eq_true] at hi ⊢
    rw [hi.2]
    simp
  lt i hi := xor_lt hi htarget

theorem pairing_swaps {n a b : ℕ} (ha : a < n) (hb : b < n) (hne : a ≠ b) :
    Pairing (fun i => i &&& 2 ^ a != 0 && i &&& 2 ^ b == 0) (fun i => i.ldiff (2 ^ a) ||| 2 ^ b)
      (exchangeBits a b) (2 ^ n) where
  partner_eq i hi := by
    simp only [and_two_pow_beq_zero, and_two_pow_bne_zero, Bool.and_eq_true, Bool.not_eq_true'] at hi
    refine Nat.eq_of_testBit_eq fun k => ?_
    rw [testBit_exchangeBits, Equiv.swap_apply_def, Nat.testBit_or, Nat.testBit_ldiff, Nat.testBit_two_pow,
      Nat.testBit_two_pow]
    split_ifs with hka hkb
    · simp [hka, hi.2, hne.symm]
    · simp [hkb, hi.1]
    · simp [Ne.symm hka, Ne.symm hkb]
  mate_mate i := exchangeBits_involutive a b i
  once i hi := by
    simp only [and_two_pow_beq_zero, and_two_pow_bne_zero, Bool.and_eq_true, Bool.not_eq_true'] at hi ⊢
    rw [testBit_exchangeBits, Equiv.swap_apply_left, hi.2]
    rfl
  lt i hi := exchangeBits_lt hi ha hb

section

variable {s : StateVector} {g : Gate}

/-- An array of that size with the amplitudes of a state is the state's. -/
theorem eq_amplitudes {b : Array Amplitude} (hsize : b.size = 2 ^ s.qubits)
    (h : ∀ i < 2 ^ s.qubits, b.getD i .zero = s.amplitude i) : b = s.amplitudes := by
  refine Array.ext (hsize.trans s.size_eq.symm) fun i hi hi' => ?_
  have hread := h i (hsize ▸ hi)
  simpa [amplitude, Array.getD, hi, hi'] using hread

theorem Pairing.sweep_eq_tabulate {visits : ℕ → Bool} {partner mate : ℕ → ℕ} {f : ℕ → Amplitude}
    (h : Pairing visits partner mate (2 ^ s.qubits))
    (hf : ∀ i < 2 ^ s.qubits, mixed visits mate g s.amplitude i = f i) :
    sweep visits partner g s.amplitudes = (tabulate s.qubits f).amplitudes := by
  rw [← s.size_eq] at h
  obtain ⟨hsize, hswept⟩ := h.sweep_eq (g := g)
  refine eq_amplitudes (s := tabulate s.qubits f) (hsize.trans s.size_eq) fun i hi => ?_
  have hi' : i < 2 ^ s.qubits := hi
  rw [hswept i (s.size_eq ▸ hi'), amplitude_tabulate hi', ← hf i hi']
  rfl

theorem pairs_eq {q : ℕ} (hq : q < s.qubits) : pairs g q s.amplitudes = (s.apply g q).amplitudes := by
  refine (pairing_pairs hq).sweep_eq_tabulate fun i _ => ?_
  simp only [mixed, gateAt, and_two_pow_beq_zero, testBit_xor_two_pow_self]
  cases i.testBit q <;> rfl

theorem controlledPairs_eq {control target : ℕ} (htarget : target < s.qubits) (hne : control ≠ target) :
    controlledPairs g control target s.amplitudes = (s.applyControlled g control target).amplitudes := by
  refine (pairing_controlledPairs control htarget).sweep_eq_tabulate fun i _ => ?_
  simp only [mixed, gateAt, and_two_pow_beq_zero, and_two_pow_bne_zero, testBit_xor_two_pow_self,
    testBit_xor_two_pow_of_ne hne]
  cases i.testBit control <;> cases i.testBit target <;> rfl

theorem swaps_eq {a b : ℕ} (ha : a < s.qubits) (hb : b < s.qubits) (hne : a ≠ b) :
    swaps a b s.amplitudes = (s.exchange a b).amplitudes := by
  refine (pairing_swaps ha hb hne).sweep_eq_tabulate fun i _ => ?_
  simp only [mixed, and_two_pow_beq_zero, and_two_pow_bne_zero, testBit_exchangeBits, Equiv.swap_apply_left,
    Equiv.swap_apply_right]
  by_cases hsame : i.testBit a = i.testBit b
  · rw [exchangeBits_of_same hsame, hsame]
    cases i.testBit b <;> rfl
  · revert hsame
    cases i.testBit a <;> cases i.testBit b <;> intro hsame
    · exact absurd rfl hsame
    · rfl
    · rfl
    · exact absurd rfl hsame

theorem run_act (a : Action) {bits : List ℕ} (hinside : ∀ q ∈ bits, q < s.qubits) (hdistinct : bits.Nodup) :
    (act a bits).run s.amplitudes = (.ok (), (s.act a bits).amplitudes) := by
  fun_cases StateVector.act s a bits with
  | case1 g q =>
    rw [← pairs_eq (hinside q (by simp))]
    rfl
  | case2 g control target =>
    have hne : control ≠ target := by simpa using hdistinct
    rw [← controlledPairs_eq (hinside target (by simp)) hne]
    rfl
  | case3 a b =>
    have hne : a ≠ b := by simpa using hdistinct
    rw [← swaps_eq (hinside a (by simp)) (hinside b (by simp)) hne]
    rfl
  | case4 a bits hsingle hcontrolled hexchange =>
    rw [act.eq_4 a bits hsingle hcontrolled hexchange]
    rfl

/-- Overwriting the amplitudes comes to the same as making new ones, and a failure leaves them. -/
theorem run_applyOperation (s : StateVector) (op : Operation) :
    (applyOperation s.qubits op).run s.amplitudes =
      match s.applyOperation op with
      | .ok s' => (.ok (), s'.amplitudes)
      | .error e => (.error e, s.amplitudes) := by
  rw [applyOperation, StateVector.applyOperation, actionOn]
  cases hfind : op.bits.find? fun q => s.qubits ≤ q with
  | some q => rfl
  | none =>
    have hinside : ∀ q ∈ op.bits, q < s.qubits := by simpa using hfind
    dsimp only
    generalize (if takesTwo op.name then 2 else 1) = arity
    split_ifs with hfits
    · cases action op with
      | error e => rfl
      | ok a => exact run_act a hinside hfits.2
    · rfl

end

end InPlace

end StateVector

/-- Each of these gates undoes itself on indices. -/
theorem Operation.Classical.onIndex_onIndex {op : Operation} (h : op.Classical) (i : ℕ) :
    op.onIndex (op.onIndex i) = i := by
  cases h with
  | one q hname hbits =>
    rcases hname with hname | hname <;> simp [onIndex, hname, hbits]
  | two a b hname hbits hne =>
    rcases hname with hname | hname
    · simp only [onIndex, hname, hbits]
      by_cases ha : i.testBit a = true
      · rw [if_pos ha, if_pos (by rw [StateVector.testBit_xor_two_pow_of_ne hne, ha]), StateVector.xor_two_pow_twice]
      · rw [if_neg ha, if_neg ha]
    · simp only [onIndex, hname, hbits, StateVector.exchangeBits_involutive]

namespace StateVector

variable {s s' : StateVector} {op : Operation}

def Action.takesTwo : Action → Bool
  | .controlled _ | .exchange => true
  | .nothing | .single _ => false

/-- Gates on two qubits are those with an action on two. -/
theorem takesTwo_action {a : Action} (h : action op = .ok a) : takesTwo op.name = a.takesTwo := by
  have hturned {gate : Float → Action} (h : (do return gate (← angle op 0)) = Except.ok a) : ∃ x, gate x = a := by
    obtain ⟨x, -, hx⟩ := bind_eq_ok_iff.mp h
    exact ⟨x, Except.ok.inj hx⟩
  have hgeneral (h : (do return Action.single (.general (← angle op 0) (← angle op 1) (← angle op 2))) =
      Except.ok a) : ∃ g, .single g = a := by
    obtain ⟨x, -, h⟩ := bind_eq_ok_iff.mp h
    obtain ⟨y, -, h⟩ := bind_eq_ok_iff.mp h
    obtain ⟨z, -, h⟩ := bind_eq_ok_iff.mp h
    exact ⟨_, Except.ok.inj h⟩
  unfold action at h
  split at h
  all_goals first
    | rename_i hname
      rw [hname]
      first
      | cases h
        rfl
      | obtain ⟨x, rfl⟩ := hturned h
        rfl
      | obtain ⟨g, rfl⟩ := hgeneral h
        rfl
    | cases h

/-- What a gate makes of the two amplitudes at `i` and `j`, of which the first has the bit clear. -/
def MakesPair (g : Gate) (old new : ℕ → Amplitude) (i j : ℕ) : Prop :=
  new i = g.clear (old i) (old j) ∧ new j = g.set (old i) (old j)

/-- What an action on qubits makes of the amplitudes `old`. The indices of a pair differ in one bit. -/
def Pointwise (n : ℕ) (old new : ℕ → Amplitude) : Action → List ℕ → Prop
  | .nothing, _ => ∀ i < 2 ^ n, new i = old i
  | .single g, [q] => ∀ i < 2 ^ n, i.testBit q = false → MakesPair g old new i (i ||| 2 ^ q)
  | .controlled g, [control, target] => ∀ i < 2 ^ n,
      (i.testBit control = false → new i = old i) ∧
      (i.testBit control = true → i.testBit target = false → MakesPair g old new i (i ||| 2 ^ target))
  | .exchange, [a, b] => ∀ i < 2 ^ n, ∀ j, (∀ k, j.testBit k = i.testBit (Equiv.swap a b k)) → new i = old j
  | _, _ => False

/-- A gate makes each pair of new amplitudes of the old ones at the same two indices. -/
theorem makesPair_of_gateAt {g : Gate} {q i : ℕ} {new : ℕ → Amplitude} (hi : i < 2 ^ s.qubits) (hq : q < s.qubits)
    (hclear : i.testBit q = false) (hnew : ∀ k < 2 ^ s.qubits, k = i ∨ k = i ^^^ 2 ^ q → new k = s.gateAt g q k) :
    MakesPair g s.amplitude new i (i ||| 2 ^ q) := by
  have hset : (i ^^^ 2 ^ q).testBit q = true := by rw [testBit_xor_two_pow_self, hclear]; rfl
  rw [or_two_pow_of_clear hclear, MakesPair, hnew i hi (.inl rfl), hnew _ (xor_lt hi hq) (.inr rfl), gateAt,
    gateAt, hclear, hset, xor_two_pow_twice]
  exact ⟨rfl, rfl⟩

theorem pointwise_act (s : StateVector) {a : Action} {bits : List ℕ} (hinside : ∀ q ∈ bits, q < s.qubits)
    (hdistinct : bits.Nodup) (hlength : bits.length = if a.takesTwo then 2 else 1) :
    Pointwise s.qubits s.amplitude (s.act a bits).amplitude a bits := by
  fun_cases StateVector.act s a bits with
  | case1 g q =>
    intro i hi hclear
    exact makesPair_of_gateAt hi (hinside q (by simp)) hclear fun k hk _ => amplitude_tabulate hk
  | case2 g control target =>
    have hne : control ≠ target := by simpa using hdistinct
    refine fun i hi => ⟨fun hcontrol => ?_, fun hcontrol hclear => ?_⟩
    · rw [applyControlled, amplitude_tabulate hi, hcontrol]
      rfl
    · refine makesPair_of_gateAt hi (hinside target (by simp)) hclear fun k hk hpair => ?_
      have hset : k.testBit control = true := by
        rcases hpair with rfl | rfl
        · exact hcontrol
        · rw [testBit_xor_two_pow_of_ne hne, hcontrol]
      rw [applyControlled, amplitude_tabulate hk, hset]
      rfl
  | case3 a b =>
    intro i hi j hj
    have hexchanged : exchangeBits a b i = j :=
      Nat.eq_of_testBit_eq fun k => (testBit_exchangeBits a b i k).trans (hj k).symm
    rw [exchange, amplitude_tabulate hi, hexchanged]
  | case4 _ _ hsingle hcontrolled hexchange =>
    cases a with
    | nothing => exact fun _ _ => rfl
    | single g =>
      obtain ⟨q, rfl⟩ := List.length_eq_one_iff.mp hlength
      exact absurd rfl (hsingle g q rfl)
    | controlled g =>
      obtain ⟨a, b, rfl⟩ := List.length_eq_two.mp hlength
      exact absurd rfl (hcontrolled g a b rfl)
    | exchange =>
      obtain ⟨a, b, rfl⟩ := List.length_eq_two.mp hlength
      exact absurd rfl (hexchange a b rfl)

/-- A state is its amplitudes. -/
theorem eq_of_amplitude (hqubits : s.qubits = s'.qubits) (h : ∀ i < 2 ^ s.qubits, s.amplitude i = s'.amplitude i) :
    s = s' := by
  have hamplitudes : s.amplitudes = s'.amplitudes :=
    InPlace.eq_amplitudes (s.size_eq.trans (by rw [hqubits])) fun i hi => h i (hqubits ▸ hi)
  obtain ⟨n, a, ha⟩ := s
  obtain ⟨n', a', ha'⟩ := s'
  cases hqubits
  cases hamplitudes
  rfl

/-- A gate that permutes the basis states moves the amplitudes by the same permutation. -/
theorem amplitude_of_classical (hop : op.Classical) (happly : s.applyOperation op = .ok s') :
    ∀ i < 2 ^ s.qubits, s'.amplitude i = s.amplitude (op.onIndex i) := by
  obtain ⟨-, -, -, a, haction, rfl⟩ := applyOperation_eq_ok_iff.mp happly
  intro i hi
  cases hop with
  | one q hname hbits =>
    rcases hname with hname | hname <;> simp only [action, hname] at haction <;> cases haction
    · simp only [act, hbits, Operation.onIndex, hname]
      rfl
    · simp only [act, hbits, Operation.onIndex, hname]
      exact (amplitude_tabulate hi).trans (gateAt_x s q i)
  | two a b hname hbits hne =>
    rcases hname with hname | hname <;> simp only [action, hname] at haction <;> cases haction
    · simp only [act, hbits, Operation.onIndex, hname]
      rw [applyControlled, amplitude_tabulate hi, gateAt_x]
      split <;> rfl
    · simp only [act, hbits, Operation.onIndex, hname]
      exact amplitude_tabulate hi

/-- Applied again, such a gate puts all amplitudes back. -/
theorem applyOperation_of_classical (hop : op.Classical) (happly : s.applyOperation op = .ok s') :
    s'.applyOperation op = .ok s := by
  have hqubits := qubits_applyOperation happly
  obtain ⟨hinside, hdistinct, hlength, a, haction, -⟩ := applyOperation_eq_ok_iff.mp happly
  have hagain : s'.applyOperation op = .ok (s'.act a op.bits) :=
    applyOperation_eq_ok_iff.mpr ⟨hqubits ▸ hinside, hdistinct, hlength, a, haction, rfl⟩
  rw [hagain]
  refine congrArg Except.ok (eq_of_amplitude ((qubits_act a op.bits).trans hqubits) fun i hi => ?_)
  rw [qubits_act] at hi
  have hi' : i < 2 ^ s.qubits := hqubits ▸ hi
  rw [amplitude_of_classical hop hagain i hi, amplitude_of_classical hop happly _ (onIndex_lt hop hinside hi'),
    hop.onIndex_onIndex]

/-- The gates `X`, `CNOT` and `Swap` are refused or permute the basis states. -/
theorem classical_of_applyOperation (hname : op.name ∈ ["X", "CNOT", "Swap"])
    (happly : s.applyOperation op = .ok s') : op.Classical := by
  obtain ⟨-, hdistinct, hlength, -⟩ := applyOperation_eq_ok_iff.mp happly
  simp only [List.mem_cons, List.not_mem_nil, or_false] at hname
  rcases hname with hname | hname | hname <;> rw [hname] at hlength
  · obtain ⟨q, hbits⟩ := List.length_eq_one_iff.mp hlength
    exact .one q (.inr hname) hbits
  all_goals
    obtain ⟨a, b, hbits⟩ := List.length_eq_two.mp hlength
    exact .two a b (by simp [hname]) hbits (by simpa [hbits] using hdistinct)

end StateVector

/-- Gates overwrite the amplitudes while they read them. Still a gate either is refused, with every
amplitude left as it is, or makes each amplitude of old ones: a gate on one qubit the two at a pair of
indices that differ in its bit, a controlled gate those pairs alone whose control bit is set, and an
exchange moves amplitudes. The gates `X`, `CNOT` and `Swap` only move amplitudes, and twice the same
gate puts them back, whatever they are. -/
theorem gates_act_pointwise (s : StateVector) (op : Operation) :
    match s.applyOperation op with
    | .error e => (StateVector.InPlace.applyOperation s.qubits op).run s.amplitudes = (.error e, s.amplitudes)
    | .ok s' =>
      (StateVector.InPlace.applyOperation s.qubits op).run s.amplitudes = (.ok (), s'.amplitudes) ∧
      s'.amplitudes.size = 2 ^ s.qubits ∧
      (∃ a, StateVector.action op = .ok a ∧
        StateVector.Pointwise s.qubits s.amplitude s'.amplitude a op.bits) ∧
      (op.name ∈ ["X", "CNOT", "Swap"] →
        (∀ i < 2 ^ s.qubits, op.onIndex i < 2 ^ s.qubits ∧ op.onIndex (op.onIndex i) = i ∧
          s'.amplitude i = s.amplitude (op.onIndex i)) ∧
        (StateVector.InPlace.applyOperation s.qubits op).run s'.amplitudes = (.ok (), s.amplitudes)) := by
  have hrun := StateVector.InPlace.run_applyOperation s op
  cases happly : s.applyOperation op with
  | error e => rwa [happly] at hrun
  | ok s' =>
    rw [happly] at hrun
    have hqubits := StateVector.qubits_applyOperation happly
    obtain ⟨hinside, hdistinct, hlength, a, haction, hact⟩ := StateVector.applyOperation_eq_ok_iff.mp happly
    refine ⟨hrun, s'.size_eq.trans (by rw [hqubits]), ⟨a, haction, ?_⟩, fun hname => ?_⟩
    · rw [← hact]
      exact s.pointwise_act hinside hdistinct (StateVector.takesTwo_action haction ▸ hlength)
    · have hop := StateVector.classical_of_applyOperation hname happly
      have hmoved := StateVector.amplitude_of_classical hop happly
      refine ⟨fun i hi => ⟨StateVector.onIndex_lt hop hinside hi, hop.onIndex_onIndex i, hmoved i hi⟩, ?_⟩
      have hback := StateVector.InPlace.run_applyOperation s' op
      rwa [StateVector.applyOperation_of_classical hop happly, hqubits] at hback

end QuantumKernels
