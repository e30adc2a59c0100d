import QuantumKernels.Fourier
import Mathlib

/-!
# The Fourier transform

A kernel of the transform is read with exact angles, as steps on amplitudes that are complex numbers. Of the
numbers that the qubits may stand for, the first qubit has the highest bit. The steps of a qubit turn the
amplitudes by the fraction that the qubits after it stand for; so the steps of the last qubits, taken alone, sum
over the numbers of these qubits. All steps and the exchange at the end make the discrete Fourier transform, and
the inverse kernel takes it back.
-/
namespace QuantumKernels.Fourier

open Complex Finset
open scoped Real

/-- A gate of the transform; a turn that is taken back goes the other way round. -/
inductive Step where
  | hadamard (q : ℕ)
  | turn (control target distance : ℕ) (back : Bool)
  | exchange (a b : ℕ)

namespace Step

def operation : Step → Operation
  | hadamard q => { name := "H", bits := [q] }
  | turn control target distance back =>
    { name := "CPhase", bits := [control, target]
      parameters := [.real (if back then -angle distance else angle distance)] }
  | exchange a b => { name := "Swap", bits := [a, b] }

def undo : Step → Step
  | turn control target distance back => turn control target distance (!back)
  | s => s

/-- An amplitude for each assignment of the qubits. -/
abbrev Amplitudes := (ℕ → Bool) → ℂ

/-- The factor at an angle of a half turn divided by `2 ^ distance`. -/
noncomputable def factor (distance : ℕ) (back : Bool) : ℂ :=
  exp ((if back then -1 else 1) * (π * I / 2 ^ (distance % 64)))

/-- What a step makes of amplitudes, with exact angles. -/
noncomputable def exact (ψ : Amplitudes) : Step → Amplitudes
  | hadamard q => fun y =>
    (ψ (Function.update y q false) + (if y q then -1 else 1) * ψ (Function.update y q true)) / √2
  | turn control target distance back => fun y =>
    (if y control && y target then factor distance back else 1) * ψ y
  | exchange a b => fun y => ψ (y ∘ Equiv.swap a b)

end Step

open Step

/-- The steps of one qubit: its own, then the turns that the qubits after it control. -/
def stageSteps (qubits i : ℕ) : List Step :=
  .hadamard i :: (List.range (qubits - i - 1)).map fun d => .turn (i + d + 1) i (d + 1) false

def reversalSteps (qubits : ℕ) : List Step :=
  (List.range (qubits / 2)).map fun i => .exchange i (qubits - 1 - i)

def steps (qubits : ℕ) : List Step := (List.range qubits).flatMap (stageSteps qubits) ++ reversalSteps qubits

theorem forward_eq (qubits : ℕ) : forward qubits = (steps qubits).map operation := by
  have hstage : stage qubits = fun i => (stageSteps qubits i).map operation := by
    funext i
    simp [stage, stageSteps, Function.comp_def, operation]
  simp [forward, steps, hstage, reversal, reversalSteps, List.map_flatMap, Function.comp_def, operation]

noncomputable def run (ψ : Amplitudes) (l : List Step) : Amplitudes := l.foldl exact ψ

theorem run_cons (ψ : Amplitudes) (s : Step) (l : List Step) : run ψ (s :: l) = run (exact ψ s) l := rfl

theorem run_append (ψ : Amplitudes) (l l' : List Step) : run ψ (l ++ l') = run (run ψ l) l' := List.foldl_append

/-! ## One qubit -/

/-- A bit as a number. -/
def bit (b : Bool) : ℂ := if b then 1 else 0

theorem factor_of_lt {distance : ℕ} (h : distance < 64) : factor distance false = exp (π * I / 2 ^ distance) := by
  simp [factor, Nat.mod_eq_of_lt h]

/-- Turns of one qubit add up to the fraction that their controls stand for. -/
theorem run_turns {i count : ℕ} (hcount : count < 64) (ψ : Amplitudes) (y : ℕ → Bool) :
    run ψ ((List.range count).map fun d => .turn (i + d + 1) i (d + 1) false) y =
      exp (π * I * (bit (y i) * ∑ d ∈ range count, bit (y (i + d + 1)) / 2 ^ (d + 1))) * ψ y := by
  induction count with
  | zero => simp [run]
  | succ count ih =>
    have hturn : (if y (i + count + 1) && y i then factor (count + 1) false else 1) =
        exp (π * I * (bit (y i) * (bit (y (i + count + 1)) / 2 ^ (count + 1)))) := by
      rw [factor_of_lt hcount]
      cases y (i + count + 1) <;> cases y i <;> simp [bit, div_eq_mul_inv, mul_assoc]
    rw [List.range_succ, List.map_append, run_append, List.map_singleton, run_cons]
    change (if y (i + count + 1) && y i then factor (count + 1) false else 1) * run ψ _ y = _
    rw [ih (by omega), hturn, ← mul_assoc, ← exp_add, sum_range_succ]
    ring_nf

/-- The qubits from the last one on that stand for a number, `count` of them; the others as they are. -/
def placed (qubits count x : ℕ) (y : ℕ → Bool) (q : ℕ) : Bool :=
  if qubits - count ≤ q ∧ q < qubits then x.testBit (qubits - 1 - q) else y q

/-- The last qubits as a fraction, the last of them whole. -/
noncomputable def weight (qubits count : ℕ) (y : ℕ → Bool) : ℂ :=
  ∑ t ∈ range count, bit (y (qubits - 1 - t)) / 2 ^ t

/-- A number is its highest bit and the rest. -/
theorem eq_bit_add_mod {count x : ℕ} (hx : x < 2 ^ (count + 1)) :
    (x : ℂ) = bit (x.testBit count) * 2 ^ count + ((x % 2 ^ count : ℕ) : ℂ) := by
  have hdiv : (x / 2 ^ count : ℕ) = (x.testBit count).toNat := by
    have hlt : x / 2 ^ count < 2 := Nat.div_lt_of_lt_mul (by rwa [← pow_succ])
    rw [Nat.toNat_testBit, Nat.mod_eq_of_lt hlt]
  have hsplit := Nat.div_add_mod x (2 ^ count)
  rw [hdiv] at hsplit
  nth_rewrite 1 [← hsplit]
  cases x.testBit count <;> simp [bit]

/-- The bits of a number, the highest first, make up its fraction. -/
theorem sum_bits {count x : ℕ} (hx : x < 2 ^ count) :
    ∑ d ∈ range count, bit (x.testBit (count - 1 - d)) / 2 ^ (d + 1) = (x : ℂ) / 2 ^ count := by
  induction count generalizing x with
  | zero => simp [Nat.lt_one_iff.mp hx]
  | succ count ih =>
    have hrest := ih (Nat.mod_lt x (Nat.two_pow_pos count))
    have hlower : ∀ d ∈ range count, bit (x.testBit (count + 1 - 1 - (d + 1))) / (2 : ℂ) ^ (d + 1 + 1) =
        bit ((x % 2 ^ count).testBit (count - 1 - d)) / 2 ^ (d + 1) / 2 := by
      intro d hd
      have hd := mem_range.mp hd
      rw [Nat.testBit_mod_two_pow, decide_eq_true (by omega), Bool.true_and, pow_succ _ (d + 1), div_div]
      congr 3
      omega
    rw [sum_range_succ', sum_congr rfl hlower, ← sum_div, hrest, eq_bit_add_mod hx]
    rw [Nat.add_sub_cancel, Nat.sub_zero, zero_add, pow_one, pow_succ]
    field_simp
    ring

theorem run_stage {qubits i : ℕ} (hqubits : qubits ≤ 64) (hi : i < qubits) (ψ : Amplitudes) (y : ℕ → Bool) :
    run ψ (stageSteps qubits i) y =
      exp (π * I * (bit (y i) * ∑ d ∈ range (qubits - i - 1), bit (y (i + d + 1)) / 2 ^ (d + 1))) *
        ((ψ (Function.update y i false) + (if y i then -1 else 1) * ψ (Function.update y i true)) / √2) := by
  rw [stageSteps, run_cons, run_turns (by omega)]
  rfl

/-! ## The last qubits -/

theorem exp_bit (b : Bool) : exp (π * I * bit b) = if b then -1 else 1 := by
  cases b <;> simp [bit, exp_pi_mul_I]

/-- Numbers that differ by a bit above the last qubits are turned alike by them. -/
theorem exp_weight (qubits count : ℕ) (y : ℕ → Bool) : exp (π * I * (2 ^ count * weight qubits count y)) = 1 := by
  obtain ⟨n, heven⟩ : ∃ n : ℕ, 2 ^ count * weight qubits count y = 2 * n := by
    refine ⟨∑ t ∈ range count, (y (qubits - 1 - t)).toNat * 2 ^ (count - 1 - t), ?_⟩
    rw [weight, mul_sum, Nat.cast_sum, mul_sum]
    refine sum_congr rfl fun t ht => ?_
    have ht := mem_range.mp ht
    have hpow : (2 : ℂ) ^ count = 2 * 2 ^ (count - 1 - t) * 2 ^ t := by
      rw [mul_assoc, ← pow_add, ← pow_succ']
      congr 1
      omega
    rw [hpow]
    cases y (qubits - 1 - t) <;> simp [bit]
  rw [heven, exp_eq_one_iff]
  exact ⟨n, by push_cast; ring⟩

theorem weight_succ (qubits count : ℕ) (y : ℕ → Bool) :
    weight qubits (count + 1) y = weight qubits count y + bit (y (qubits - 1 - count)) / 2 ^ count :=
  sum_range_succ ..

variable {qubits count x : ℕ}

theorem update_placed (hcount : count < qubits) (hx : x < 2 ^ count) (y : ℕ → Bool) :
    Function.update (placed qubits count x y) (qubits - 1 - count) false = placed qubits (count + 1) x y ∧
    Function.update (placed qubits count x y) (qubits - 1 - count) true =
      placed qubits (count + 1) (2 ^ count + x) y := by
  constructor
  · funext q
    rcases eq_or_ne q (qubits - 1 - count) with rfl | hq
    · rw [Function.update_self, placed, if_pos (by omega)]
      exact (Nat.testBit_lt_two_pow (by rwa [show qubits - 1 - (qubits - 1 - count) = count by omega])).symm
    · rw [Function.update_of_ne hq, placed, placed]
      congr 1
      exact propext (by omega)
  · funext q
    rcases eq_or_ne q (qubits - 1 - count) with rfl | hq
    · rw [Function.update_self, placed, if_pos (by omega), show qubits - 1 - (qubits - 1 - count) = count by omega,
        Nat.testBit_two_pow_add_eq, Nat.testBit_lt_two_pow hx]
      rfl
    · rw [Function.update_of_ne hq, placed, placed]
      by_cases hlast : qubits - count ≤ q ∧ q < qubits
      · rw [if_pos hlast, if_pos (by omega), Nat.testBit_two_pow_add_gt (by omega)]
      · rw [if_neg hlast, if_neg (by omega)]

/-- The steps of the last qubits sum over the numbers of these qubits. -/
theorem run_last (hqubits : qubits ≤ 64) (hcount : count ≤ qubits) (ψ : Amplitudes) (y : ℕ → Bool) :
    run ψ ((List.range' (qubits - count) count).flatMap (stageSteps qubits)) y =
      (√2 ^ count : ℂ)⁻¹ * ∑ x ∈ range (2 ^ count), exp (π * I * (x * weight qubits count y)) * ψ (placed qubits count x y) := by
  induction count generalizing ψ with
  | zero =>
    have hplaced : placed qubits 0 0 y = y := by
      funext q
      exact if_neg (by omega)
    simp [run, hplaced]
  | succ count ih =>
    have hcount' : count < qubits := hcount
    have hrange : List.range' (qubits - (count + 1)) (count + 1) =
        (qubits - 1 - count) :: List.range' (qubits - count) count := by
      rw [List.range'_succ, show qubits - (count + 1) = qubits - 1 - count by omega,
        show qubits - 1 - count + 1 = qubits - count by omega]
    -- the number of the last qubits without their first, then that qubit clear and set
    rw [hrange, List.flatMap_cons, run_append, ih (by omega), pow_succ (√2 : ℂ), mul_inv, mul_assoc,
      pow_succ 2 count, mul_two, Finset.sum_range_add, ← Finset.sum_add_distrib, Finset.mul_sum _ _ (√2 : ℂ)⁻¹]
    congr 1
    refine sum_congr rfl fun x hx => ?_
    have hx := mem_range.mp hx
    obtain ⟨hclear, hset⟩ := update_placed hcount' hx y
    have hfirst : placed qubits count x y (qubits - 1 - count) = y (qubits - 1 - count) := if_neg (by omega)
    have hlater : ∑ d ∈ range (qubits - (qubits - 1 - count) - 1),
        bit (placed qubits count x y (qubits - 1 - count + d + 1)) / 2 ^ (d + 1) = (x : ℂ) / 2 ^ count := by
      rw [show qubits - (qubits - 1 - count) - 1 = count by omega, ← sum_bits hx]
      refine sum_congr rfl fun d hd => ?_
      have hd := mem_range.mp hd
      have hplace : qubits - 1 - (qubits - 1 - count + d + 1) = count - 1 - d := by omega
      rw [placed, if_pos (by omega), hplace]
    have hturned : exp (π * I * (x * weight qubits count y)) *
        exp (π * I * (bit (y (qubits - 1 - count)) * (x / 2 ^ count))) =
        exp (π * I * (x * weight qubits (count + 1) y)) := by
      rw [← exp_add, weight_succ]
      ring_nf
    have habove : exp (π * I * ((2 ^ count + x : ℕ) * weight qubits (count + 1) y)) =
        exp (π * I * (x * weight qubits (count + 1) y)) * if y (qubits - 1 - count) then -1 else 1 := by
      have hsplit : π * I * ((2 ^ count + x : ℕ) * weight qubits (count + 1) y) =
          π * I * (x * weight qubits (count + 1) y) + π * I * bit (y (qubits - 1 - count)) +
            π * I * (2 ^ count * weight qubits count y) := by
        rw [weight_succ]
        push_cast
        field_simp
        ring
      rw [hsplit, exp_add, exp_add, exp_weight, mul_one, exp_bit]
    rw [run_stage hqubits (by omega), hfirst, hlater, hclear, hset, habove, ← hturned]
    ring

/-! ## All qubits -/

/-- The qubits the other way round. -/
def mirror (qubits q : ℕ) : ℕ := if q < qubits then qubits - 1 - q else q

theorem run_reversal (qubits : ℕ) (ψ : Amplitudes) (y : ℕ → Bool) :
    run ψ (reversalSteps qubits) y = ψ (y ∘ mirror qubits) := by
  have hpart : ∀ k ≤ qubits / 2, run ψ ((List.range k).map fun i => .exchange i (qubits - 1 - i)) y =
      ψ (y ∘ fun q => if q < k ∨ qubits - k ≤ q ∧ q < qubits then qubits - 1 - q else q) := by
    intro k hk
    induction k generalizing y with
    | zero =>
      change ψ y = _
      congr 1
      funext q
      simp only [Function.comp_apply]
      rw [if_neg (by omega)]
    | succ k ih =>
      rw [List.range_succ, List.map_append, run_append]
      change run ψ _ (y ∘ Equiv.swap k (qubits - 1 - k)) = _
      rw [ih _ (by omega)]
      congr 1
      funext q
      simp only [Function.comp_apply, Equiv.swap_apply_def]
      congr 1
      split_ifs <;> omega
  rw [reversalSteps, hpart _ le_rfl]
  congr 1
  funext q
  simp only [Function.comp_apply, mirror]
  congr 1
  split_ifs <;> omega

/-- The number that the qubits stand for. -/
def number (qubits : ℕ) (y : ℕ → Bool) : ℕ := ∑ q ∈ range qubits, (y q).toNat * 2 ^ (qubits - 1 - q)

/-- The steps of a kernel are the discrete Fourier transform, as long as a shift within a word reaches from one
qubit to the other. -/
theorem run_steps (hqubits : qubits ≤ 64) (ψ : Amplitudes) (y : ℕ → Bool) :
    run ψ (steps qubits) y = (√2 ^ qubits : ℂ)⁻¹ *
      ∑ x ∈ range (2 ^ qubits), exp (2 * π * I * (x * number qubits y / 2 ^ qubits)) * ψ (placed qubits qubits x y) := by
  have hplaced : ∀ x, placed qubits qubits x (y ∘ mirror qubits) = placed qubits qubits x y := by
    intro x
    funext q
    by_cases hq : q < qubits <;> simp [placed, mirror, hq]
  have hweight : weight qubits qubits (y ∘ mirror qubits) = 2 * (number qubits y / 2 ^ qubits) := by
    rw [weight, number, Nat.cast_sum, Finset.sum_div, Finset.mul_sum]
    refine sum_congr rfl fun t ht => ?_
    have ht := mem_range.mp ht
    have hmirror : mirror qubits (qubits - 1 - t) = t := by
      rw [mirror, if_pos (by omega)]
      omega
    have hpow : (2 : ℂ) ^ qubits = 2 * 2 ^ (qubits - 1 - t) * 2 ^ t := by
      rw [mul_assoc, ← pow_add, ← pow_succ']
      congr 1
      omega
    rw [Function.comp_apply, hmirror, hpow]
    cases y t <;> simp [bit]
    field_simp
  have hlast := run_last hqubits le_rfl ψ (y ∘ mirror qubits)
  rw [Nat.sub_self, ← List.range_eq_range', hweight] at hlast
  rw [steps, run_append, run_reversal, hlast]
  congr 1
  refine sum_congr rfl fun x _ => ?_
  rw [hplaced]
  ring_nf

/-! ## The inverse -/

/-- The steps of an inverse kernel: all taken back, from the last one on. -/
def inverseSteps (qubits : ℕ) : List Step := (steps qubits).reverse.map Step.undo

theorem undo_operation {s : Step} {qubits : ℕ} (hs : s ∈ steps qubits) : Fourier.undo s.operation = s.undo.operation := by
  rcases List.mem_append.mp hs with hs | hs
  · obtain ⟨i, -, hs⟩ := List.mem_flatMap.mp hs
    rcases List.mem_cons.mp hs with rfl | hs
    · rfl
    · obtain ⟨d, -, rfl⟩ := List.mem_map.mp hs
      rfl
  · obtain ⟨i, -, rfl⟩ := List.mem_map.mp hs
    rfl

theorem backward_eq (qubits : ℕ) : operations ⟨true⟩ qubits = (inverseSteps qubits).map operation := by
  rw [operations, if_pos rfl, forward_eq, inverseSteps, ← List.map_reverse, List.map_map, List.map_map]
  exact List.map_congr_left fun s hs => undo_operation (List.mem_reverse.mp hs)

theorem factor_mul_factor (distance : ℕ) (back : Bool) : factor distance back * factor distance (!back) = 1 := by
  cases back <;> simp [factor, ← exp_add]

theorem exact_hadamard_twice (ψ : Amplitudes) (q : ℕ) : exact (exact ψ (.hadamard q)) (.hadamard q) = ψ := by
  funext y
  have hsqrt : (√2 : ℂ) * √2 = 2 := by rw [← ofReal_mul, Real.mul_self_sqrt zero_le_two, ofReal_ofNat]
  have hinside : ∀ b, exact ψ (.hadamard q) (Function.update y q b) =
      (ψ (Function.update y q false) + (if b then -1 else 1) * ψ (Function.update y q true)) / √2 := by
    intro b
    simp [exact]
  change (exact ψ (.hadamard q) (Function.update y q false) +
    (if y q then -1 else 1) * exact ψ (.hadamard q) (Function.update y q true)) / √2 = ψ y
  rw [hinside, hinside]
  set low := ψ (Function.update y q false) with hlow
  set high := ψ (Function.update y q true) with hhigh
  cases hq : y q with
  | false =>
    rw [← hq, Function.update_eq_self] at hlow
    rw [← hlow]
    calc _ = 2 * low / (√2 * √2) := by simp; ring
      _ = low := by rw [hsqrt]; ring
  | true =>
    rw [← hq, Function.update_eq_self] at hhigh
    rw [← hhigh]
    calc _ = 2 * high / (√2 * √2) := by simp; ring
      _ = high := by rw [hsqrt]; ring

theorem exact_undo (ψ : Amplitudes) (s : Step) : exact (exact ψ s) s.undo = ψ := by
  cases s with
  | hadamard q => exact exact_hadamard_twice ψ q
  | turn control target distance back =>
    funext y
    change (if y control && y target then factor distance (!back) else 1) *
      ((if y control && y target then factor distance back else 1) * ψ y) = ψ y
    rw [← mul_assoc]
    split_ifs
    · rw [mul_comm (factor distance (!back)), factor_mul_factor, one_mul]
    · rw [one_mul, one_mul]
  | exchange a b =>
    funext y
    change ψ ((y ∘ Equiv.swap a b) ∘ Equiv.swap a b) = ψ y
    congr 1
    funext q
    simp

/-- The inverse kernel takes the transform back, on any number of qubits. -/
theorem run_inverseSteps (qubits : ℕ) (ψ : Amplitudes) : run (run ψ (steps qubits)) (inverseSteps qubits) = ψ := by
  rw [inverseSteps]
  induction steps qubits generalizing ψ with
  | nil => rfl
  | cons s rest ih =>
    rw [List.reverse_cons, List.map_append, run_append, run_cons, ih]
    exact exact_undo ψ s

end QuantumKernels.Fourier
