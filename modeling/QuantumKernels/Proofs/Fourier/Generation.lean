import QuantumKernels.Fourier
import QuantumKernels.Proofs.Binding
import QuantumKernels.Proofs.Numeric.Exact
import QuantumKernels.Proofs.Simulator.Acceptance

/-!
# Kernels of the Fourier transform

A kernel is generated exactly if the number of its qubits is given as an integer that is not negative. It is made
by edits, uses these qubits and nothing else, and its operations are built as their kinds say. So a local simulator
with room for the qubits runs it. The angles are exact parts of the double that stands for a half turn.
-/
namespace QuantumKernels

namespace Fourier

/-- The kernel for a number of qubits. -/
def kernel (g : Fourier) (qubits : ℕ) : Kernel :=
  (Kernel.named g.name).pushAll ((g.operations qubits).map .leaf)

variable {g : Fourier} {k : Kernel} {qubits : ℕ}

theorem generate_eq_ok_iff {parameters : Dictionary Parameter} : g.generate parameters = .ok k ↔
    ∃ n : Int64, (parameters.get? "nqubits").bind Parameter.toInt? = some n ∧ 0 ≤ n.toInt ∧ k = g.kernel n.toInt.toNat := by
  unfold generate
  cases (parameters.get? "nqubits").bind Parameter.toInt? with
  | none => simp
  | some n =>
    dsimp only
    by_cases hn : 0 ≤ n.toInt
    · simp [hn, kernel, eq_comm]
    · simp [hn]

/-- Parameters in order are one integer that is not negative. -/
theorem generateFrom_eq_ok_iff {parameters : List Parameter} : g.generateFrom parameters = .ok k ↔
    ∃ p n, parameters = [p] ∧ p.toInt? = some n ∧ 0 ≤ n.toInt ∧ k = g.kernel n.toInt.toNat := by
  unfold generateFrom
  match parameters with
  | [p] =>
    have hget : (Dictionary.ofList (parameterNames.zip [p])).get? "nqubits" = some p := rfl
    have hlength : [p].length = parameterNames.length := rfl
    rw [if_pos hlength, generate_eq_ok_iff, hget]
    simp
  | [] => simp [parameterNames]
  | _ :: _ :: _ => simp [parameterNames]

theorem magnitude_part : ∀ n : ℕ, n < 64 → Decimal.Magnitude.ofBits (Formula.pi / Float.ofNat (2 ^ n)).toBits =
    { Decimal.Magnitude.ofBits Formula.pi.toBits with
      exponent := (Decimal.Magnitude.ofBits Formula.pi.toBits).exponent - (n : ℤ) } := by
  decide +kernel

/-- No digit of a half turn is lost in its parts. -/
theorem exactly_angle (distance : ℕ) :
    Scalar.exactly (angle distance) = Scalar.exactly Formula.pi / 2 ^ (distance % 64) := by
  have hpart := magnitude_part (distance % 64) (Nat.mod_lt _ (by decide))
  rw [Scalar.exactly, Scalar.exactly, angle, hpart]
  dsimp only
  rw [zpow_sub₀ (by norm_num), zpow_natCast, mul_div_assoc]

/-- An operation of the transform, on qubits below a number. -/
inductive Gate (qubits : ℕ) : Operation → Prop
  | hadamard {q : ℕ} (hq : q < qubits) : Gate qubits { name := "H", bits := [q] }
  | turn {control target : ℕ} (angle : Float) (hne : control ≠ target) (hcontrol : control < qubits)
      (htarget : target < qubits) :
      Gate qubits { name := "CPhase", bits := [control, target], parameters := [.real angle] }
  | exchange {a b : ℕ} (hne : a ≠ b) (ha : a < qubits) (hb : b < qubits) :
      Gate qubits { name := "Swap", bits := [a, b] }

theorem Gate.undo {op : Operation} (h : Gate qubits op) : Gate qubits (Fourier.undo op) := by
  cases h with
  | hadamard hq => exact .hadamard hq
  | turn angle hne hcontrol htarget => exact .turn (-angle) hne hcontrol htarget
  | exchange hne ha hb => exact .exchange hne ha hb

theorem gate_of_mem_forward {op : Operation} (hop : op ∈ forward qubits) : Gate qubits op := by
  rcases List.mem_append.mp hop with hop | hop
  · obtain ⟨i, hi, hop⟩ := List.mem_flatMap.mp hop
    have hi := List.mem_range.mp hi
    rcases List.mem_cons.mp hop with rfl | hop
    · exact .hadamard hi
    · obtain ⟨d, hd, rfl⟩ := List.mem_map.mp hop
      have hd := List.mem_range.mp hd
      exact .turn _ (by omega) (by omega) hi
  · obtain ⟨i, hi, rfl⟩ := List.mem_map.mp hop
    have hi := List.mem_range.mp hi
    exact .exchange (by omega) (by omega) (by omega)

theorem gate_of_mem_operations {op : Operation} (hop : op ∈ g.operations qubits) : Gate qubits op := by
  unfold operations at hop
  split at hop
  · obtain ⟨op', hop', rfl⟩ := List.mem_map.mp hop
    exact (gate_of_mem_forward (List.mem_reverse.mp hop')).undo
  · exact gate_of_mem_forward hop

theorem Gate.vars {op : Operation} (h : Gate qubits op) : op.vars = [] := by
  cases h <;> rfl

theorem Gate.bits_lt {op : Operation} (h : Gate qubits op) : ∀ q ∈ op.bits, q < qubits := by
  cases h <;> simp [*]

theorem Gate.not_isMeasure {op : Operation} (h : Gate qubits op) : op.isMeasure = false := by
  cases h <;> rfl

/-- The gates are what the gate family builds for their names. -/
theorem Gate.built {op : Operation} (h : Gate qubits op) : op.Built := by
  have hfind : Kind.gate.find? "H" = some ⟨"H", 1, 0, false⟩ ∧ Kind.gate.find? "CPhase" = some ⟨"CPhase", 2, 1, false⟩ ∧
      Kind.gate.find? "Swap" = some ⟨"Swap", 2, 0, false⟩ := by
    simp only [Kind.find?, Text.sameIgnoringCase, Text.lowerAscii, String.map_eq_internal]
    decide +kernel
  obtain ⟨hhadamard, hturn, hexchange⟩ := hfind
  have hreads : op.isMeasure = true → op.slot?.isSome := fun hmeasure => by
    rw [h.not_isMeasure] at hmeasure
    cases hmeasure
  refine ⟨?_, ?_, hreads⟩
  · cases h with
    | hadamard => exact ⟨"H", [], by rw [hhadamard]; rfl, by simp, by rw [Kind.build, hhadamard]; rfl⟩
    | turn angle =>
      exact ⟨"CPhase", [.real angle], by rw [hturn]; rfl, by simpa using .real angle, by rw [Kind.build, hturn]; rfl⟩
    | exchange => exact ⟨"Swap", [], by rw [hexchange]; rfl, by simp, by rw [Kind.build, hexchange]; rfl⟩
  · cases h <;> simp [*]

/-- A kernel has the operations alone; no variables are declared. -/
theorem kernel_eq (g : Fourier) (qubits : ℕ) :
    g.kernel qubits = ⟨(Kernel.named g.name).header, (g.operations qubits).map .leaf⟩ := by
  refine pushAll_of_declared _ [] fun i hi => ?_
  obtain ⟨op, hop, rfl⟩ := List.mem_map.mp hi
  rw [Instruction.declared, (gate_of_mem_operations hop).vars]
  exact List.nil_subset _

theorem built_kernel (g : Fourier) (qubits : ℕ) : (g.kernel qubits).Built := by
  have hpush : ∀ (l : List Operation) (k : Kernel), k.Built → (k.pushAll (l.map .leaf)).Built := by
    intro l
    induction l with
    | nil => exact fun _ hk => hk
    | cons op rest ih => exact fun k hk => ih _ (.push hk (.operation op))
  exact hpush _ _ (.named g.name .gate)

theorem Gate.enabled {op : Operation} (h : Gate qubits op) : op.enabled = true := by
  cases h <;> rfl

theorem operations_kernel (g : Fourier) (qubits : ℕ) : (g.kernel qubits).operations = g.operations qubits := by
  rw [kernel_eq, Kernel.operations, Instruction.operationsOf_eq, List.flatMap_map]
  have hleaf : ∀ op ∈ g.operations qubits, (Instruction.leaf op).operations = [op] := fun op hop =>
    if_pos (gate_of_mem_operations hop).enabled
  rw [List.flatMap_congr hleaf, List.flatMap_singleton']

theorem hadamard_mem_operations {q : ℕ} (hq : q < qubits) :
    ({ name := "H", bits := [q] } : Operation) ∈ g.operations qubits := by
  have hforward : ({ name := "H", bits := [q] } : Operation) ∈ forward qubits :=
    List.mem_append_left _ (List.mem_flatMap.mpr ⟨q, List.mem_range.mpr hq, List.mem_cons_self⟩)
  unfold operations
  split
  · exact List.mem_map.mpr ⟨_, List.mem_reverse.mpr hforward, rfl⟩
  · exact hforward

theorem widthOf_operations (g : Fourier) (qubits : ℕ) :
    widthOf ((g.operations qubits).flatMap Operation.bits) = qubits := by
  refine Nat.le_antisymm (widthOf_le fun q hq => ?_) ?_
  · obtain ⟨op, hop, hq⟩ := List.mem_flatMap.mp hq
    exact (gate_of_mem_operations hop).bits_lt q hq
  · cases qubits with
    | zero => exact Nat.zero_le _
    | succ last =>
      exact lt_widthOf (List.mem_flatMap.mpr ⟨_, hadamard_mem_operations (Nat.lt_succ_self last), by simp⟩)

/-- A local simulator with room for the qubits runs the transform, whatever its random source. -/
theorem execute_kernel {s : LocalSettings} {b : Buffer} (random : RandomSource) (hsize : qubits ≤ b.size)
    (hlimit : qubits ≤ s.maxQubits) (hheld : qubits ≤ Register.mostHeld) (herror : ¬ 1 < s.readoutError) :
    ∃ b', s.execute random (g.kernel qubits) b = .ok b' := by
  have hoperations := operations_kernel g qubits
  refine (LocalSettings.execute_ok_of_built ?_ ?_ ?_).mpr (.inr (.inr herror))
  · rw [hoperations]
    exact fun op hop => ⟨(gate_of_mem_operations hop).built, fun q hq =>
      have hlt := (gate_of_mem_operations hop).bits_lt q hq
      ⟨hlt.trans_le hsize, hlt.trans_le hlimit⟩⟩
  · rw [hoperations, widthOf_operations]
    exact hheld
  · -- without a measurement all shots are drawn from one evolution
    rintro p x hp ⟨hterminal, -⟩
    have hall : ∀ op ∈ (g.operations qubits), (!op.isMeasure) = true := fun op hop => by
      rw [(gate_of_mem_operations hop).not_isMeasure]
      rfl
    rw [(Plan.ofKernel_follows hp).terminal, hoperations, List.dropWhile_eq_nil_iff.mpr hall] at hterminal
    cases hterminal

end Fourier

end QuantumKernels
