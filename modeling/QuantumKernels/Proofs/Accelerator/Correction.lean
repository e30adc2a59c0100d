import QuantumKernels.Proofs.Accelerator.Growth
import QuantumKernels.Proofs.Numeric.Readout

/-!
# Shots of a corrected buffer

A correction shares the shots of a buffer out in proportion to a distribution, and rounds what each outcome
gets by itself. So it keeps the number of shots only if the errors of all these roundings cancel, each of
which is a half at most.
-/
namespace QuantumKernels

namespace Buffer

theorem occurrences_eq_sum (counts : List (String × ℕ)) (bits : String) :
    occurrences counts bits = (counts.map fun e => if e.1 = bits then e.2 else 0).sum := by
  rw [occurrences, List.sum, List.foldr_map]

theorem count_replaceCounts (b : Buffer) (counts : Dictionary ℕ) (bits : String) :
    (b.replaceCounts counts).count bits = (counts.get? bits).getD 0 := by
  rw [replaceCounts, count_appendCounts, occurrences_eq_sum, counts.sum_ite_key]
  exact Nat.zero_add _

theorem shots_replaceCounts (b : Buffer) (counts : Dictionary ℕ) :
    (b.replaceCounts counts).shots = wordTotal counts := by
  rw [shots, wordTotal, wordTotal, replaceCounts, total_appendCounts, total_eq_sum counts]
  exact congrArg Word.wrap (Nat.zero_add _)

end Buffer

namespace Correction

open Readout

section

variable {α : Type} [Scalar α] (distribution : Dictionary α) (shots : ℕ)

theorem getD_shares (key : String) : ((shares distribution shots).get? key).getD 0 =
    ((distribution.get? key).map (portion shots)).getD 0 := by
  rw [shares, Dictionary.get?_filterMap]
  cases distribution.get? key with
  | none => rfl
  | some share => by_cases hzero : portion shots share = 0 <;> simp [hzero]

/-- Outcomes that get nothing are left out, which changes no sum. -/
theorem total_shares : Buffer.total (shares distribution shots) =
    (distribution.entries.map fun e => portion shots e.2).sum := by
  rw [Buffer.total_eq_sum, shares, Dictionary.entries_filterMap]
  induction distribution.entries with
  | nil => rfl
  | cons e l ih => by_cases hzero : portion shots e.2 = 0 <;> simp [hzero, ih]

end

/-- How far the shots of an outcome are from its share of them. -/
def roundingError (shots : ℕ) (share : ℚ) : ℚ := portion shots share - share * shots

theorem abs_roundingError_le (shots : ℕ) {share : ℚ} (hshare : 0 < share) : |roundingError shots share| ≤ 1 / 2 :=
  Scalar.abs_nearest_sub_le (mul_nonneg hshare.le (Nat.cast_nonneg shots))

theorem abs_sum_roundingError_le (shots : ℕ) {l : List (String × ℚ)} (hl : ∀ e ∈ l, 0 < e.2) :
    |(l.map fun e => roundingError shots e.2).sum| ≤ l.length / 2 := by
  induction l with
  | nil => simp
  | cons e l ih =>
    have hfirst := abs_roundingError_le shots (hl e (by simp))
    have hrest := ih fun e he => hl e (by simp [he])
    rw [List.map_cons, List.sum_cons, List.length_cons, Nat.cast_add_one]
    calc |roundingError shots e.2 + (l.map fun e => roundingError shots e.2).sum|
      _ ≤ |roundingError shots e.2| + |(l.map fun e => roundingError shots e.2).sum| := abs_add_le _ _
      _ ≤ 1 / 2 + l.length / 2 := add_le_add hfirst hrest
      _ = (l.length + 1) / 2 := by ring

/-- If the shares are one in all, the shots that are shared out are off by the errors of the roundings. -/
theorem total_shares_of_sum_eq_one {distribution : Dictionary ℚ} (hone : (distribution.entries.map (·.2)).sum = 1)
    (shots : ℕ) : (Buffer.total (shares distribution shots) : ℚ) =
      shots + (distribution.entries.map fun e => roundingError shots e.2).sum := by
  have hportion (e : String × ℚ) : (portion shots e.2 : ℚ) = e.2 * shots + roundingError shots e.2 := by
    rw [roundingError]
    ring
  rw [total_shares, Nat.cast_list_sum, List.map_map]
  calc (distribution.entries.map fun e => (portion shots e.2 : ℚ)).sum
    _ = (distribution.entries.map fun e => e.2 * (shots : ℚ)).sum +
          (distribution.entries.map fun e => roundingError shots e.2).sum := by
      simp only [hportion, List.sum_map_add]
    _ = shots + (distribution.entries.map fun e => roundingError shots e.2).sum := by
      rw [List.sum_map_mul_right, hone, one_mul]

/-- A correction that succeeds leaves a buffer without shots as it is. In any other it counts each outcome as
often as the natural number says that is nearest to the product of its share and the shots, a half going up,
and nothing else: the shots are kept exactly if these numbers add up to them, as words do. On exact numbers
they are off by half a shot for each outcome at most, and kept exactly if the errors of the roundings cancel. -/
theorem stage_keeps_shots_iff {σ : Type} {r : Rates} {rates : ErrorRates} {rest : Kernel → Run σ Unit} {k : Kernel}
    {b b' : Buffer} {s s' : σ} (hrun : ((stage σ r).around rates rest k).run (b, s) = (.ok (), b', s')) :
    ∃ raw, (rest k).run (b, s) = (.ok (), raw, s') ∧ (raw.shots = 0 → b' = raw) ∧
      (raw.shots ≠ 0 →
        (∃ up down distribution, r.resolve rates.oneBit = .ok (up, down) ∧
          correct (Buffer.words raw.counts) up down = .ok distribution ∧
          (∀ bits, b'.count bits = ((distribution.get? bits).map (portion raw.shots)).getD 0) ∧
          (∀ e ∈ distribution.entries, 0 < e.2 * Float.ofNat raw.shots → portion raw.shots e.2 =
            min (2 ^ 64 - 1) ⌊Scalar.exactly (e.2 * Float.ofNat raw.shots) + 1 / 2⌋₊) ∧
          (b'.shots = raw.shots ↔
            Word.wrap (distribution.entries.map fun e => portion raw.shots e.2).sum = raw.shots)) ∧
        ∀ (up down : List ℚ) (distribution : Dictionary ℚ),
          correct (Buffer.words raw.counts) up down = .ok distribution →
          |(Buffer.total (shares distribution raw.shots) : ℚ) - raw.shots| ≤ distribution.size / 2 ∧
          (Buffer.total (shares distribution raw.shots) = raw.shots ↔
            (distribution.entries.map fun e => roundingError raw.shots e.2).sum = 0)) := by
  rw [stage_run] at hrun
  obtain ⟨raw, hrest, hcorrected⟩ := finish_eq_ok hrun
  have hcases := corrected_eq_ok hcorrected
  refine ⟨raw, hrest, fun hzero => ?_, fun hshots => ⟨?_, fun up down distribution hcorrect => ?_⟩⟩
  · exact (hcases.resolve_right fun h => h.1 hzero).2
  · obtain ⟨-, up, down, distribution, hrates, hcorrect, rfl⟩ := hcases.resolve_left fun h => hshots h.1
    refine ⟨up, down, distribution, hrates, hcorrect, fun bits => ?_, fun e _ hpos => ?_, ?_⟩
    · rw [Buffer.count_replaceCounts, getD_shares]
    · exact Scalar.nearest_float hpos
    · rw [Buffer.shots_replaceCounts, Buffer.wordTotal, total_shares]
  · obtain ⟨hpos, hone⟩ := shares_of_correct (by rwa [Buffer.wordTotal_words]) hcorrect
    have htotal := total_shares_of_sum_eq_one hone raw.shots
    constructor
    · rw [htotal, add_sub_cancel_left]
      exact abs_sum_roundingError_le raw.shots hpos
    · rw [← Nat.cast_inj (R := ℚ), htotal]
      exact add_eq_left

/-- A device that measures six shots on two bits. -/
def sixShots (_ : Kernel) : Run Unit Unit :=
  Run.modifyBuffer (·.appendCounts [("00", 4), ("01", 1), ("10", 1)])

def measuredSix : Buffer := (Buffer.new "q" 2).appendCounts [("00", 4), ("01", 1), ("10", 1)]

/-- Each bit is misread once in ten times. -/
def oneInTen : Rates := ⟨some [0.1], some [0.1]⟩

theorem portions_measuredSix : (correct (Buffer.words measuredSix.counts) [0.1] [0.1]).map
    (fun distribution => (distribution.entries.map fun e => portion measuredSix.shots e.2).sum) = .ok 7 := by
  decide +kernel

/-- The three shares are all rounded up. -/
theorem stage_keeps_shots_iff_measuredSix : measuredSix.shots = 6 ∧
    ∃ b', ((stage Unit oneInTen).around ⟨[], []⟩ sixShots (.named "k")).run (.new "q" 2, ()) = (.ok (), b', ()) ∧
      b'.shots ≠ measuredSix.shots := by
  have hshots : measuredSix.shots = 6 := by decide +kernel
  obtain ⟨b', hcorrected⟩ : ∃ b', corrected oneInTen [] measuredSix = .ok b' :=
    exists_eq_ok_of_isSome (by decide +kernel)
  have hrun : ((stage Unit oneInTen).around ⟨[], []⟩ sixShots (.named "k")).run (.new "q" 2, ()) =
      (.ok (), b', ()) := by
    rw [stage_run]
    change finish [] oneInTen (.ok (), measuredSix, ()) = _
    rw [finish, hcorrected]
  obtain ⟨raw, hraw, -, hkept⟩ := stage_keeps_shots_iff hrun
  obtain rfl : measuredSix = raw := congrArg (·.2.1) hraw
  obtain ⟨⟨up, down, distribution, hrates, hcorrect, -, -, hiff⟩, -⟩ := hkept (by rw [hshots]; decide)
  refine ⟨hshots, b', hrun, fun hsame => ?_⟩
  have hseven := portions_measuredSix
  cases hrates
  rw [hcorrect] at hseven
  have hsum : (distribution.entries.map fun e => portion measuredSix.shots e.2).sum = 7 := Except.ok.inj hseven
  have hkept := hiff.mp hsame
  rw [hsum, hshots] at hkept
  exact absurd hkept (by decide)

end Correction

end QuantumKernels
