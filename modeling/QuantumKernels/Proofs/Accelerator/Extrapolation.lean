import QuantumKernels.Proofs.Accelerator.Failure
import QuantumKernels.Proofs.Buffer

/-!
# Extrapolation over runs that fail

Every scale is tried once, whatever became of the scales before, and in a buffer of its own. What is
concluded is decided by the runs that have succeeded: two of them are enough for an estimate, and the
first one is taken over. Without an estimate the current buffer is what it was.
-/
namespace QuantumKernels.Extrapolation

open Accelerator

variable {σ : Type} {rest : Kernel → Run σ Unit} {k : Kernel}

theorem TriedInTurn.map_scale {name : String} {size : ℕ} {scales : List ℕ} {s s' : σ} {ts : List Trial}
    (h : TriedInTurn rest k name size scales s ts s') : ts.map Trial.scale = scales := by
  induction h with
  | done s => rfl
  | more _ _ _ ih => rw [List.map_cons, ih]

/-- The scales whose run has succeeded, in their order, each with the buffer of the run. -/
def runs (ts : List Trial) : List (ℕ × Buffer) := ts.filterMap Trial.success?

def failures (ts : List Trial) : List DeviceError := ts.filterMap Trial.failure?

/-- The scales of the runs, as numbers. -/
def scalesOf (ts : List Trial) : List Float := (runs ts).map fun run => Float.ofNat run.1

/-- The expectation values of the runs, at the places of their scales. -/
def valuesOf (ts : List Trial) : List Float := (runs ts).map fun run => run.2.expectationZ

/-- The buffer `b'` is `b` with the outcomes and the entries of a run, and with an estimate beside the
scales and values that it comes from. -/
structure Estimated (b first : Buffer) (scales values : List Float) (estimate : Float) (b' : Buffer) : Prop where
  measurements : b'.measurements = b.measurements ++ first.measurements
  count : ∀ outcome, b'.count outcome = b.count outcome + first.measurements.count outcome
  scales : b'.info.get? scalesKey = some (.reals scales)
  values : b'.info.get? valuesKey = some (.reals values)
  estimate : b'.info.get? Buffer.expectationKey = some (.real estimate)
  info : ∀ key, key ∉ [scalesKey, valuesKey, Buffer.expectationKey] →
    b'.info.get? key = (first.info.get? key).or (b.info.get? key)
  rest : b' = { b with measurements := b'.measurements, counts := b'.counts, info := b'.info }

/-- What comes of trials, and of the buffer that was there before them. -/
inductive Concludes (ts : List Trial) (b : Buffer) : Except DeviceError Unit → Buffer → Prop
  | failed {e : DeviceError} (few : (runs ts).length < 2) (last : (failures ts).getLast? = some e) :
      Concludes ts b (.error e) b
  | insufficient (few : (runs ts).length < 2) (none : failures ts = []) :
      Concludes ts b (.error (.insufficient s!"rich-extrapolation needs two noise scales, got {(runs ts).length}")) b
  | unfitted {fault : LinearFit.Fault} (enough : 2 ≤ (runs ts).length)
      (fit : LinearFit.intercept ((scalesOf ts).zip (valuesOf ts)) = .error fault) :
      Concludes ts b (.error (.insufficient fault.message)) b
  | fitted {scale : ℕ} {first : Buffer} {estimate : Float} {b' : Buffer} (enough : 2 ≤ (runs ts).length)
      (head : (runs ts).head? = some (scale, first))
      (fit : LinearFit.intercept ((scalesOf ts).zip (valuesOf ts)) = .ok estimate)
      (gained : Estimated b first (scalesOf ts) (valuesOf ts) estimate b') : Concludes ts b (.ok ()) b'

/-- The buffer with what an estimate adds to it. -/
def estimated (b first : Buffer) (scales values : List Float) (estimate : Float) : Buffer :=
  (((b.absorb first).setInfo scalesKey (.reals scales)).setInfo valuesKey (.reals values)).setInfo
    Buffer.expectationKey (.real estimate)

theorem estimated_spec (b first : Buffer) (scales values : List Float) (estimate : Float) :
    Estimated b first scales values estimate (estimated b first scales values estimate) := by
  have hinfo : ∀ (b : Buffer) (key key' : String) (value : Info),
      (b.setInfo key value).info.get? key' = if key = key' then some value else b.info.get? key' :=
    fun b key key' value => b.info.get?_insert key key' value
  refine ⟨rfl, fun outcome => b.count_absorb first outcome, ?_, ?_, ?_, fun key hkey => ?_, rfl⟩
  · simp [estimated, hinfo, scalesKey, valuesKey, Buffer.expectationKey]
  · simp [estimated, hinfo, valuesKey, Buffer.expectationKey]
  · simp [estimated, hinfo]
  · simp only [List.mem_cons, List.not_mem_nil, or_false, not_or] at hkey
    rw [estimated, hinfo, hinfo, hinfo, if_neg (Ne.symm hkey.2.2), if_neg (Ne.symm hkey.2.1), if_neg (Ne.symm hkey.1)]
    exact Dictionary.get?_insertMany_entries b.info first.info key

theorem conclude_of_few {ts : List Trial} (h : (runs ts).length < 2) (b : Buffer) : conclude ts b =
    match (failures ts).getLast? with
    | some e => .error e
    | none => .error (.insufficient s!"rich-extrapolation needs two noise scales, got {(runs ts).length}") := by
  unfold conclude
  dsimp only
  split
  · rename_i hruns
    rw [runs, hruns, List.length_cons, List.length_cons] at h
    omega
  · rfl

theorem conclude_of_runs {ts : List Trial} {scale : ℕ} {first : Buffer} {other : ℕ × Buffer} {more : List (ℕ × Buffer)}
    (h : runs ts = (scale, first) :: other :: more) (b : Buffer) : conclude ts b =
      match LinearFit.intercept ((scalesOf ts).zip (valuesOf ts)) with
      | .error fault => .error (.insufficient fault.message)
      | .ok estimate => .ok (estimated b first (scalesOf ts) (valuesOf ts) estimate) := by
  unfold conclude
  dsimp only
  split
  · rename_i scale' first' other' more' hruns
    cases h.symm.trans hruns
    rfl
  · rename_i hfew
    exact absurd h (hfew scale first other more)

theorem concludes_conclude (ts : List Trial) (b : Buffer) :
    match conclude ts b with
    | .ok b' => Concludes ts b (.ok ()) b'
    | .error e => Concludes ts b (.error e) b := by
  rcases Nat.lt_or_ge (runs ts).length 2 with few | enough
  · rw [conclude_of_few few]
    cases hlast : (failures ts).getLast? with
    | some e => exact .failed few hlast
    | none => exact .insufficient few (List.getLast?_eq_none_iff.mp hlast)
  · rcases hruns : runs ts with _ | ⟨⟨scale, first⟩, _ | ⟨other, more⟩⟩
    · simp [hruns] at enough
    · simp [hruns] at enough
    · have head : (runs ts).head? = some (scale, first) := by rw [hruns, List.head?_cons]
      rw [conclude_of_runs hruns]
      cases fit : LinearFit.intercept ((scalesOf ts).zip (valuesOf ts)) with
      | error fault => exact .unfitted enough fit
      | ok estimate => exact .fitted enough head fit (estimated_spec b first _ _ estimate)

/-- At every scale in turn the rest of the chain is run once, on the kernel folded at that scale and in an
empty buffer. With fewer than two successes the last failure is reported, or that there were too few
scales; else the fit decides, and the buffer takes over the first run with the estimate. A failure of the
stage leaves the buffer as it was. -/
theorem extrapolation_tolerates_failures (rates : ErrorRates) (rest : Kernel → Run σ Unit) (k : Kernel)
    (scales : List ℕ) (b : Buffer) (s : σ) :
    ∃ ts s', TriedInTurn rest k b.name b.size scales s ts s' ∧ ts.map Trial.scale = scales ∧
      ∃ outcome b', ((stage σ scales).around rates rest k).run (b, s) = (outcome, b', s') ∧
        Concludes ts b outcome b' := by
  obtain ⟨ts, s', htried⟩ := exists_triedInTurn rest k b.name b.size scales s
  refine ⟨ts, s', htried, htried.map_scale, ?_⟩
  rw [stage_run rates rest k scales htried.trials_run]
  have hconcludes := concludes_conclude ts b
  cases hresult : conclude ts b with
  | error e =>
    rw [hresult] at hconcludes
    exact ⟨.error e, b, rfl, hconcludes⟩
  | ok b' =>
    rw [hresult] at hconcludes
    exact ⟨.ok (), b', rfl, hconcludes⟩

/-- The second of three scales fails. The others are enough, and the buffer keeps what it had. -/
theorem extrapolation_tolerates_failures_secondScale : ∃ b', ((stage ℕ [1, 3, 5]).around faltering.errorRates
    faltering.execute (.named "k")).run ((Buffer.new "q" 1).append "1", 0) = (.ok (), b', 3) ∧
      b'.measurements = ["1", "0"] ∧ b'.info.get? scalesKey = some (.reals [1, 5]) ∧
        b'.info.get? valuesKey = some (.reals [1, 1]) := by
  obtain ⟨ts, s', htried, -, outcome, b', hrun, hconcludes⟩ := extrapolation_tolerates_failures
    faltering.errorRates faltering.execute (.named "k") [1, 3, 5] ((Buffer.new "q" 1).append "1") 0
  obtain _ | ⟨-, hfirst, htried⟩ := htried
  obtain _ | ⟨-, hsecond, htried⟩ := htried
  obtain _ | ⟨-, hthird, htried⟩ := htried
  cases htried
  cases hfirst
  cases hsecond
  cases hthird
  have hfit : ∃ estimate, LinearFit.intercept ([(1 : Float), 5].zip [1, 1]) = .ok estimate := ⟨1, by decide +kernel⟩
  cases hconcludes with
  | failed few => exact absurd few (by decide)
  | insufficient few => exact absurd few (by decide)
  | unfitted _ fit =>
    obtain ⟨estimate, hestimate⟩ := hfit
    cases hestimate.symm.trans fit
  | fitted _ head _ gained =>
    cases head
    exact ⟨b', hrun, gained.measurements, gained.scales, gained.values⟩

end QuantumKernels.Extrapolation
