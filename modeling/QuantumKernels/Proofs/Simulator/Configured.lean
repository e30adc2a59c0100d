import QuantumKernels.Proofs.Settings
import QuantumKernels.Proofs.Simulator.Acceptance
import QuantumKernels.Proofs.Wire.Outcome

/-!
# The simulator as options set it up

From the default settings options come to words of the machine, to registers that have all their amplitudes
and to a readout error that is a probability. So there the conditions on which operations that are built as
their kinds run, and faulty ones are refused, are about the kernel alone.
-/
namespace QuantumKernels

theorem Options.value?_natural_lt {options : Options} {key : String} {bits n : ℕ}
    (h : options.value? key (natural bits) = some n) : n < 2 ^ bits := by
  obtain ⟨v, hread⟩ : ∃ v, options.read key (natural bits) = .ok v := by
    cases hread : options.read key (natural bits) with
    | error e => simp [value?, hread, Except.toOption] at h
    | ok v => exact ⟨v, rfl⟩
  rw [value?_of_read hread] at h
  subst h
  unfold read at hread
  split at hread
  · cases hread
  · split at hread
    · rename_i m hm
      cases hread
      have hle := Decimal.readNatural_le hm
      have hpositive := Nat.two_pow_pos bits
      omega
    · cases hread

namespace Binary64

open Float.Model Float.Model.UnpackedFloat

theorem unpack_half : (0.5 : Float).toModel.unpack = .finite .positive (2 ^ 52) (-53) (by decide) := by rfl

theorem not_above_one {x : Float} (h : x ≤ 0.5) : ¬ 1 < x := by
  rw [le_iff, unpack_half] at h
  rw [lt_iff, unpack_one]
  intro habove
  cases hx : x.toModel.unpack with
  | notANumber =>
    rw [hx] at h
    cases h
  | infinity s =>
    rw [hx] at h habove
    cases s with
    | positive => cases h
    | negative => cases habove
  | zero s =>
    rw [hx] at habove
    cases s <;> cases habove
  | finite s m e hm =>
    rw [hx] at h habove
    cases s with
    | negative => cases habove
    | positive =>
      change (some ((compare (-52) e).then (compare (2 ^ 52) m)) == some .lt) = true at habove
      -- at least the exponent of one, so above that of a half
      have hlow : -52 ≤ e := by
        by_contra hbelow
        rw [Int.compare_eq_gt.mpr (Int.not_le.mp hbelow)] at habove
        cases habove
      have hgreater : compare e (-53) = .gt := Int.compare_eq_gt.mpr (by omega)
      change (some ((compare e (-53)).then (compare m (2 ^ 52)))).any Ordering.isLE = true at h
      rw [hgreater] at h
      cases h

end Binary64

namespace LocalSettings

variable {s : LocalSettings}

/-- The numbers of the settings are words of the machine. -/
structure InWords (s : LocalSettings) : Prop where
  shots : s.shots < 2 ^ 64
  seed : ∀ n ∈ s.seed, n < 2 ^ 64
  maxQubits : s.maxQubits < 2 ^ 64

theorem InWords.overriddenBy (h : s.InWords) (options : Options) : (s.overriddenBy options).InWords := by
  have hword : ∀ {key : String} {n : ℕ}, n < 2 ^ 64 → (options.value? key (Options.natural 64)).getD n < 2 ^ 64 := by
    intro key n hn
    cases hvalue : options.value? key (Options.natural 64) with
    | none => exact hn
    | some m => exact Options.value?_natural_lt hvalue
  refine ⟨hword h.shots, fun n hn => ?_, hword h.maxQubits⟩
  cases hvalue : options.value? seedKey (Options.natural 64) with
  | none =>
    rw [LocalSettings.overriddenBy, hvalue] at hn
    exact h.seed n hn
  | some m =>
    rw [LocalSettings.overriddenBy, hvalue] at hn
    obtain rfl : m = n := Option.some.inj hn
    exact Options.value?_natural_lt hvalue

end LocalSettings

namespace Adjustable

/-- If the part is the simulator, its numbers are words of the machine. -/
def InWords : Adjustable → Prop
  | simulator s => s.InWords
  | _ => True

theorem InWords.overriddenBy {c : Adjustable} (h : c.InWords) (call : OptionCall) : (c.overriddenBy call).InWords := by
  cases c with
  | simulator s => exact LocalSettings.InWords.overriddenBy h call.options
  | stage s => trivial
  | optimizer o => trivial
  | service s => cases call <;> trivial

end Adjustable

namespace LocalSettings

variable {s : LocalSettings} {random : RandomSource} {k : Kernel} {b : Buffer}

/-- Settings that options come to from the default ones. -/
def Configured (s : LocalSettings) : Prop :=
  ∃ history, (Adjustable.simulator {}).after history = .simulator s

variable (h : s.Configured)

include h

theorem Configured.valid : (Adjustable.simulator s).Valid := by
  obtain ⟨history, hafter⟩ := h
  rw [← hafter]
  exact Adjustable.valid_after (Adjustable.valid_builtIn _ (by simp [Adjustable.builtIn])) history

theorem Configured.inWords : s.InWords := by
  obtain ⟨history, hafter⟩ := h
  have hwords : ((Adjustable.simulator {}).after history).InWords := by
    refine List.foldlRecOn (motive := Adjustable.InWords) history _ ⟨by decide, by decide, by decide⟩
      fun c hc call _ => ?_
    cases hcall : c.call? call with
    | none => exact hc
    | some result =>
      obtain ⟨answer, c'⟩ := result
      have htaken := Adjustable.call?_taken hcall
      by_cases hbad : c.Refuses call.options
      · exact (htaken.refused hbad).1 ▸ hc
      · exact (htaken.accepted hbad).1 ▸ hc.overriddenBy call
  rw [hafter] at hwords
  exact hwords

theorem Configured.held (hbits : ∀ op ∈ k.operations, ∀ q ∈ op.bits, q < s.maxQubits) :
    widthOf (k.operations.flatMap Operation.bits) ≤ Register.mostHeld :=
  ((Plan.width_le_iff k s.maxQubits).mpr hbits).trans (h.valid.2.1.2.trans (by decide))

theorem Configured.error_le_one : ¬ 1 < s.readoutError := Binary64.not_above_one h.valid.2.2.2

/-- What is built as its kind runs on each simulator that options set up, unless a reading computes a
probability that is no number. -/
theorem Configured.execute_ok (hbuilt : ∀ op ∈ k.operations, op.Built ∧ ∀ q ∈ op.bits, q < b.size ∧ q < s.maxQubits)
    (hnumbers : ∀ p x, Plan.ofKernel k b.size s.maxQubits = .ok p →
      p.Computes s.shots s.readoutError (random.stream s.seed) x → x.isNaN = false) :
    ∃ b', s.execute random k b = .ok b' :=
  (execute_ok_of_built hbuilt (h.held fun op hop q hq => ((hbuilt op hop).2 q hq).2) hnumbers).mpr
    (.inr (.inr h.error_le_one))

/-- A faulty operation on words is refused there, unless the kernel reads the greatest word and has no gates. -/
theorem Configured.execute_error_iff (hfaulty : ∃ op ∈ k.operations, op.Faulty b.size s.maxQubits)
    (hwords : ∀ op ∈ k.operations, ∀ q ∈ op.bits, q < 2 ^ 64) :
    (∃ e, s.execute random k b = .error e) ↔ ¬ k.ReadsGreatest := by
  rw [exists_eq_error_iff, execute_ok_of_faulty h.valid.1 hfaulty hwords]
  simp [h.error_le_one]

end LocalSettings

end QuantumKernels
