import QuantumKernels.Proofs.Outcome
import QuantumKernels.Simulator.Register

/-!
# Registers that have all their amplitudes

A register of few qubits has an amplitude for each of their assignments, and its qubits are at their own
places. On such a register gates and readings do what they do on its state.
-/
namespace QuantumKernels

namespace StateVector

variable {op : Operation} {qubits : ℕ} {a : Action}

theorem qubits_act {s : StateVector} (a : Action) (bits : List ℕ) : (s.act a bits).qubits = s.qubits := by
  fun_cases act s a bits <;> rfl

theorem actionOn_eq_ok_iff : actionOn qubits op = .ok a ↔ (∀ q ∈ op.bits, q < qubits) ∧ op.bits.Nodup ∧
    op.bits.length = (if takesTwo op.name then 2 else 1) ∧ action op = .ok a := by
  unfold actionOn
  split
  · rename_i q hfind
    have houtside : qubits ≤ q := by simpa using List.find?_some hfind
    refine iff_of_false nofun fun h => ?_
    exact absurd (h.1 q (List.mem_of_find?_eq_some hfind)) (Nat.not_lt.mpr houtside)
  · rename_i hfind
    have hinside : ∀ q ∈ op.bits, q < qubits := by simpa using hfind
    dsimp only
    generalize (if takesTwo op.name then 2 else 1) = arity
    by_cases hfits : op.bits.length = arity ∧ op.bits.Nodup
    · rw [if_pos hfits]
      exact ⟨fun h => ⟨hinside, hfits.2, hfits.1, h⟩, fun h => h.2.2.2⟩
    · rw [if_neg hfits]
      exact iff_of_false nofun fun h => hfits ⟨h.2.2.1, h.2.1⟩

theorem applyOperation_eq_ok_iff {s s' : StateVector} : s.applyOperation op = .ok s' ↔
    (∀ q ∈ op.bits, q < s.qubits) ∧ op.bits.Nodup ∧ op.bits.length = (if takesTwo op.name then 2 else 1) ∧
      ∃ a, action op = .ok a ∧ s.act a op.bits = s' := by
  rw [applyOperation, bind_eq_ok_iff]
  simp only [actionOn_eq_ok_iff, pure, Except.pure, Except.ok.injEq]
  constructor
  · rintro ⟨a, ⟨hinside, hdistinct, hlength, haction⟩, hact⟩
    exact ⟨hinside, hdistinct, hlength, a, haction, hact⟩
  · rintro ⟨hinside, hdistinct, hlength, a, haction, hact⟩
    exact ⟨a, ⟨hinside, hdistinct, hlength, haction⟩, hact⟩

theorem qubits_applyOperation {s s' : StateVector} (h : s.applyOperation op = .ok s') : s'.qubits = s.qubits := by
  obtain ⟨-, -, -, a, -, rfl⟩ := applyOperation_eq_ok_iff.mp h
  exact qubits_act a op.bits

theorem qubits_measure {s : StateVector} {q : ℕ} {r : RandomStream} {o : Bool × StateVector × RandomStream}
    (h : s.measure q r = .ok o) : o.2.1.qubits = s.qubits := by
  unfold measure at h
  dsimp only at h
  split at h <;> cases h
  rfl

end StateVector

namespace Register

variable {r r' : Register} {op : Operation} {q n : ℕ}

/-- A register that has an amplitude for each assignment of its qubits. -/
structure Whole (r : Register) : Prop where
  held : r.qubits ≤ mostHeld
  qubits : r.state.qubits = r.qubits

theorem place_of_held (hq : q < n) (hheld : n ≤ mostHeld) : place q = q :=
  place_of_lt (by unfold mostHeld at hheld; omega)

theorem zero_of_held (h : n ≤ mostHeld) : zero n = .ok ⟨n, .zero n⟩ := by
  have hplace : place n = n := place_of_lt (by unfold mostHeld at h; omega)
  rw [zero, hplace, if_neg (Nat.not_lt.mpr h)]

theorem Whole.place (h : r.Whole) (hq : q < r.qubits) : place q = q := place_of_held hq h.held

/-- What looks for indices on different bits of a state finds them. -/
theorem act_inside {a : StateVector.Action} {bits : List ℕ} (hinside : ∀ q ∈ bits, q < r.state.qubits)
    (hdistinct : bits.Nodup) : r.act a bits = .ok { r with state := r.state.act a bits } := by
  have hpair : ∀ x y, bits = [x, y] → ¬ (r.state.qubits ≤ x ∨ x = y) ∧ y < r.state.qubits := by
    rintro x y rfl
    have hx := hinside x (by simp)
    have hne : x ≠ y := by simpa using hdistinct
    exact ⟨by omega, hinside y (by simp)⟩
  unfold act
  fun_cases StateVector.act r.state a bits with
  | case1 g q => simp [reach, hinside q (by simp)]
  | case2 g x y => simp [reach, hpair x y rfl]
  | case3 x y => simp [reach, hpair x y rfl]
  | case4 => simp_all [reach]

theorem Whole.applyOperation (h : r.Whole) : r.applyOperation op =
    (r.state.applyOperation op).map fun s => { r with state := s } := by
  unfold Register.applyOperation StateVector.applyOperation
  rw [h.qubits]
  cases haction : StateVector.actionOn r.qubits op with
  | error e => rfl
  | ok a =>
    obtain ⟨hinside, hdistinct, -, -⟩ := StateVector.actionOn_eq_ok_iff.mp haction
    have hplaces : op.bits.map Register.place = op.bits :=
      (List.map_congr_left fun q hq => h.place (hinside q hq)).trans (List.map_id _)
    rw [hplaces]
    exact act_inside (h.qubits ▸ hinside) hdistinct

theorem measure_eq (hplace : place q = q) (random : RandomStream) : r.measure q random =
    (r.state.measure q random).map fun o => (o.1, { r with state := o.2.1 }, o.2.2) := by
  rw [measure, hplace]
  cases r.state.measure q random <;> rfl

end Register

end QuantumKernels
