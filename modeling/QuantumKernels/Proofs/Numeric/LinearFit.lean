import QuantumKernels.Numeric.LinearFit
import QuantumKernels.Proofs.Numeric.Exact
import QuantumKernels.Proofs.Settings

/-!
# The line of least squares

On exact numbers the fit is the line whose squared errors have the least sum, and there is one such line
as soon as two scales differ: the spread of distinct natural scales is a sum of squares of their distances,
hence one at least.
-/
namespace QuantumKernels.LinearFit

/-- The number of points times the sum of the squared places, less the square of the sum of the places. -/
def spread (points : List (ℚ × ℚ)) : ℚ :=
  points.length * (points.map fun p => p.1 * p.1).sum - (points.map (·.1)).sum * (points.map (·.1)).sum

/-- Squared distances of a place to the places of points. -/
def distances (x : ℚ) (points : List (ℚ × ℚ)) : ℚ := (points.map fun p => (x - p.1) ^ 2).sum

theorem distances_eq (x : ℚ) (points : List (ℚ × ℚ)) : distances x points =
    points.length * x ^ 2 - 2 * x * (points.map (·.1)).sum + (points.map fun p => p.1 * p.1).sum := by
  unfold distances
  induction points with
  | nil => simp
  | cons p points ih =>
    simp only [List.map_cons, List.sum_cons, List.length_cons, ih]
    push_cast
    ring

/-- One point more adds its squared distances to the others. -/
theorem spread_cons (p : ℚ × ℚ) (points : List (ℚ × ℚ)) :
    spread (p :: points) = spread points + distances p.1 points := by
  rw [distances_eq]
  simp only [spread, List.map_cons, List.sum_cons, List.length_cons]
  push_cast
  ring

/-- The points of runs at natural scales. -/
def pointsOf (runs : List (ℕ × ℚ)) : List (ℚ × ℚ) := runs.map fun run => ((run.1 : ℚ), run.2)

theorem distances_nonneg (x : ℚ) (points : List (ℚ × ℚ)) : 0 ≤ distances x points := by
  apply List.sum_nonneg
  intro d hd
  obtain ⟨p, -, rfl⟩ := List.mem_map.mp hd
  exact sq_nonneg _

theorem spread_nonneg (points : List (ℚ × ℚ)) : 0 ≤ spread points := by
  induction points with
  | nil => simp [spread]
  | cons p points ih =>
    rw [spread_cons]
    exact add_nonneg ih (distances_nonneg p.1 points)

/-- A scale that is met first is one away, at least, from the next one. -/
theorem one_le_distances {scale : ℕ} {runs : List (ℕ × ℚ)} (hne : runs ≠ [])
    (hnew : scale ∉ runs.map (·.1)) : 1 ≤ distances scale (pointsOf runs) := by
  obtain ⟨run, others, rfl⟩ := List.exists_cons_of_ne_nil hne
  have hother : (scale : ℤ) - run.1 ≠ 0 := by
    intro hzero
    apply hnew
    simp [show scale = run.1 by omega]
  have hpos : 0 < ((scale : ℤ) - run.1) ^ 2 := by positivity
  have hone : (1 : ℚ) ≤ ((scale : ℚ) - run.1) ^ 2 := by exact_mod_cast Int.add_one_le_of_lt hpos
  have hothers := distances_nonneg scale (pointsOf others)
  have hsplit : distances scale (pointsOf (run :: others)) =
      ((scale : ℚ) - run.1) ^ 2 + distances scale (pointsOf others) := by
    simp [distances, pointsOf]
  linarith

theorem one_le_spread {runs : List (ℕ × ℚ)} (htwo : 2 ≤ runs.length) (hdistinct : (runs.map (·.1)).Nodup) :
    1 ≤ spread (pointsOf runs) := by
  cases runs with
  | nil => simp at htwo
  | cons run others =>
    have hnew : run.1 ∉ others.map (·.1) := (List.nodup_cons.mp hdistinct).1
    have hne : others ≠ [] := by
      rintro rfl
      simp at htwo
    have hfirst := one_le_distances hne hnew
    have hothers := spread_nonneg (pointsOf others)
    have hsplit : spread (pointsOf (run :: others)) =
        spread (pointsOf others) + distances run.1 (pointsOf others) := spread_cons _ _
    linarith

@[ext]
structure Line where
  height : ℚ
  slope : ℚ
deriving DecidableEq

namespace Line

def value (l : Line) (x : ℚ) : ℚ := l.height + l.slope * x

/-- The sum of the squared errors of a line. -/
def error (l : Line) (points : List (ℚ × ℚ)) : ℚ := (points.map fun p => (p.2 - l.value p.1) ^ 2).sum

theorem error_nonneg (l : Line) (points : List (ℚ × ℚ)) : 0 ≤ l.error points := by
  apply List.sum_nonneg
  intro d hd
  obtain ⟨p, -, rfl⟩ := List.mem_map.mp hd
  exact sq_nonneg _

theorem error_of_through {l : Line} {points : List (ℚ × ℚ)} (h : ∀ p ∈ points, p.2 = l.value p.1) :
    l.error points = 0 := by
  apply List.sum_eq_zero
  intro d hd
  obtain ⟨p, hp, rfl⟩ := List.mem_map.mp hd
  simp [h p hp]

theorem error_eq (l : Line) (points : List (ℚ × ℚ)) : l.error points =
    (points.map fun p => p.2 * p.2).sum - 2 * l.height * (points.map (·.2)).sum
      - 2 * l.slope * (points.map fun p => p.1 * p.2).sum + points.length * l.height ^ 2
      + 2 * l.height * l.slope * (points.map (·.1)).sum
      + l.slope ^ 2 * (points.map fun p => p.1 * p.1).sum := by
  unfold error
  induction points with
  | nil => simp
  | cons p points ih =>
    rw [List.map_cons, List.sum_cons, ih]
    simp only [List.map_cons, List.sum_cons, List.length_cons, value]
    push_cast
    ring

end Line

/-- The line of the fit. -/
def fitted (points : List (ℚ × ℚ)) : Line :=
  let x := (points.map (·.1)).sum
  let y := (points.map (·.2)).sum
  let slope := (points.length * (points.map fun p => p.1 * p.2).sum - x * y) / spread points
  ⟨(y - slope * x) / points.length, slope⟩

/-- The fit answers unless there are too few points or they are too close together. -/
theorem intercept_eq (points : List (ℚ × ℚ)) : intercept points =
    if points.length < 2 then .error (.tooFew points.length)
    else if |spread points| < 1 / 2 ^ 52 then .error .notDistinct
    else .ok (fitted points).height := by
  simp only [intercept, leastSpread, Scalar.ofNat_rat, Scalar.one_rat, Scalar.sum_rat, Scalar.abs_rat]
  push_cast
  rfl

theorem intercept_of_spread {points : List (ℚ × ℚ)} (htwo : 2 ≤ points.length) (hspread : 1 ≤ spread points) :
    intercept points = .ok (fitted points).height := by
  have hwide : ¬ |spread points| < 1 / 2 ^ 52 := by
    rw [abs_of_nonneg (by linarith)]
    norm_num
    linarith
  rw [intercept_eq, if_neg (by omega), if_neg hwide]

/-- The errors of a line exceed those of the fit by squares of what the two differ in. -/
theorem error_sub_error {points : List (ℚ × ℚ)} (hne : points ≠ []) (hspread : spread points ≠ 0) (l : Line) :
    points.length * (l.error points - (fitted points).error points) =
      (points.length * (l.height - (fitted points).height) +
        (l.slope - (fitted points).slope) * (points.map (·.1)).sum) ^ 2 +
      (l.slope - (fitted points).slope) ^ 2 * spread points := by
  have hlength : (points.length : ℚ) ≠ 0 := by simpa using hne
  have hslope : (fitted points).slope * spread points = points.length * (points.map fun p => p.1 * p.2).sum -
      (points.map (·.1)).sum * (points.map (·.2)).sum := div_mul_cancel₀ _ hspread
  have hheight : (fitted points).height * points.length =
      (points.map (·.2)).sum - (fitted points).slope * (points.map (·.1)).sum := div_mul_cancel₀ _ hlength
  rw [Line.error_eq, Line.error_eq]
  unfold spread at hslope ⊢
  linear_combination (2 * points.length * (l.height - (fitted points).height) +
    2 * (l.slope - (fitted points).slope) * (points.map (·.1)).sum) * hheight +
    2 * (l.slope - (fitted points).slope) * hslope

section

variable {points : List (ℚ × ℚ)}

theorem ne_nil_of_spread (hspread : 1 ≤ spread points) : points ≠ [] := by
  rintro rfl
  norm_num [spread] at hspread

theorem fitted_error_le (hspread : 1 ≤ spread points) (l : Line) : (fitted points).error points ≤ l.error points := by
  have hne := ne_nil_of_spread hspread
  have hlength : (0 : ℚ) < points.length := by exact_mod_cast List.length_pos_iff.mpr hne
  have hdifference := error_sub_error hne (by linarith) l
  have hsquares : 0 ≤ points.length * (l.error points - (fitted points).error points) := by
    rw [hdifference]
    have hslopes := mul_nonneg (sq_nonneg (l.slope - (fitted points).slope)) (spread_nonneg points)
    exact add_nonneg (sq_nonneg _) hslopes
  exact sub_nonneg.mp (nonneg_of_mul_nonneg_right hsquares hlength)

/-- No other line is as good. -/
theorem eq_fitted_of_error_le (hspread : 1 ≤ spread points) {l : Line}
    (h : l.error points ≤ (fitted points).error points) : l = fitted points := by
  have hne := ne_nil_of_spread hspread
  have hlength : (points.length : ℚ) ≠ 0 := by simpa using hne
  have hsame : l.error points = (fitted points).error points := le_antisymm h (fitted_error_le hspread l)
  have hdifference := error_sub_error hne (by linarith) l
  rw [hsame, sub_self, mul_zero] at hdifference
  have hspreads := mul_nonneg (sq_nonneg (l.slope - (fitted points).slope)) (spread_nonneg points)
  obtain ⟨hheights, hslopes⟩ := (add_eq_zero_iff_of_nonneg (sq_nonneg _) hspreads).mp hdifference.symm
  have hslope : l.slope - (fitted points).slope = 0 := by
    rcases mul_eq_zero.mp hslopes with hsquare | hzero
    · exact pow_eq_zero_iff two_ne_zero |>.mp hsquare
    · linarith
  have hheight : l.height - (fitted points).height = 0 := by
    rw [hslope, zero_mul, add_zero] at hheights
    exact (mul_eq_zero.mp (pow_eq_zero_iff two_ne_zero |>.mp hheights)).resolve_left hlength
  exact Line.ext (sub_eq_zero.mp hheight) (sub_eq_zero.mp hslope)

theorem fitted_of_through (hspread : 1 ≤ spread points) {l : Line} (h : ∀ p ∈ points, p.2 = l.value p.1) :
    fitted points = l := by
  apply Eq.symm
  apply eq_fitted_of_error_le hspread
  rw [Line.error_of_through h]
  exact Line.error_nonneg _ _

theorem fitted_perm {points' : List (ℚ × ℚ)} (h : points'.Perm points) :
    fitted points' = fitted points ∧ spread points' = spread points := by
  have hsum (f : ℚ × ℚ → ℚ) : (points'.map f).sum = (points.map f).sum := (h.map f).sum_eq
  simp only [fitted, spread, h.length_eq, hsum, and_self]

end

/-- Scales that are admitted are distinct, and at two distinct scales or more the fit always succeeds,
whatever the values: the spread is one at least. It gives the height at zero of the line of least squares,
which is unique, so of the line through all points if there is one; their order does not count. -/
theorem intercept_is_least_squares (runs : List (ℕ × ℚ)) :
    (Extrapolation.check (runs.map (·.1)) = .ok () → (runs.map (·.1)).Nodup) ∧
    (2 ≤ runs.length → (runs.map (·.1)).Nodup → 1 ≤ spread (pointsOf runs) ∧
      ∃ best : Line, intercept (pointsOf runs) = .ok best.height ∧
        (∀ l : Line, best.error (pointsOf runs) ≤ l.error (pointsOf runs)) ∧
        (∀ l : Line, l.error (pointsOf runs) ≤ best.error (pointsOf runs) → l = best) ∧
        (∀ l : Line, (∀ run ∈ runs, run.2 = l.value run.1) → best = l) ∧
        ∀ runs', runs'.Perm runs → intercept (pointsOf runs') = .ok best.height) := by
  refine ⟨fun hcheck => (Extrapolation.check_eq_ok.mp hcheck).2.1, fun htwo hdistinct => ?_⟩
  have hspread := one_le_spread htwo hdistinct
  have hlength : (pointsOf runs).length = runs.length := by simp [pointsOf]
  refine ⟨hspread, fitted (pointsOf runs), intercept_of_spread (by omega) hspread, fitted_error_le hspread,
    fun l hl => eq_fitted_of_error_le hspread hl, fun l hl => ?_, fun runs' hperm => ?_⟩
  · apply fitted_of_through hspread
    intro p hp
    obtain ⟨run, hrun, rfl⟩ := List.mem_map.mp hp
    exact hl run hrun
  · obtain ⟨hfitted, hspread'⟩ := fitted_perm (hperm.map fun run => ((run.1 : ℚ), run.2))
    have htwo' : 2 ≤ (pointsOf runs').length := by simpa [pointsOf, hperm.length_eq] using htwo
    rw [intercept_of_spread htwo' (hspread'.symm ▸ hspread)]
    exact congrArg (fun l => Except.ok (Line.height l)) hfitted

/-- Three points of one line, in no order. -/
def fallingRuns : List (ℕ × ℚ) := [(5, 1 / 2), (1, 9 / 10), (3, 7 / 10)]

theorem intercept_is_least_squares_fallingRuns :
    2 ≤ fallingRuns.length ∧ (fallingRuns.map (·.1)).Nodup ∧ intercept (pointsOf fallingRuns) = .ok 1 ∧
      intercept (pointsOf fallingRuns.reverse) = .ok 1 := by
  have htwo : 2 ≤ fallingRuns.length := by decide
  have hdistinct : (fallingRuns.map (·.1)).Nodup := by decide
  obtain ⟨-, best, hfit, -, -, hthrough, horder⟩ := (intercept_is_least_squares fallingRuns).2 htwo hdistinct
  have hline : ∀ run ∈ fallingRuns, run.2 = (⟨1, -1 / 10⟩ : Line).value run.1 := by
    norm_num [fallingRuns, Line.value]
  obtain rfl := hthrough _ hline
  exact ⟨htwo, hdistinct, hfit, horder _ fallingRuns.reverse_perm⟩

end QuantumKernels.LinearFit
