import QuantumKernels.Proofs.Accelerator.Run
import QuantumKernels.Proofs.Buffer
import Mathlib.Data.List.Pairwise

/-!
# Running into a buffer that is not empty

Repeated sampling and extrapolation take over what was measured in buffers of their own. A chain
that begins with one of them puts new outcomes behind old ones, whatever else stands in it, and so
does the device alone. A correction makes one histogram of all that the buffer holds.
-/
namespace QuantumKernels

/-- The action does the same on every buffer of a name and size; what it does to an empty one goes
behind the contents of the others. -/
def Run.OnlyAdds {σ : Type} (action : Run σ Unit) : Prop :=
  ∀ (b : Buffer) (s : σ), ∃ outcome own b' s',
    action.run (.new b.name b.size, s) = (outcome, own, s') ∧
    action.run (b, s) = (outcome, b', s') ∧ (outcome = .ok () → b.Grown own b')

section

variable {σ : Type} (rates : ErrorRates) (rest : Kernel → Run σ Unit) (k : Kernel)

/-- Both buffers grow by the same runs, as these start from empty buffers alike. -/
theorem Sampling.repeated_grows (action : Run σ Unit) (times : ℕ) {b own b' : Buffer} (h : b.Grown own b')
    (s : σ) : ∃ outcome own₁ b₁ s', (repeated action times).run (own, s) = (outcome, own₁, s') ∧
      (repeated action times).run (b', s) = (outcome, b₁, s') ∧ b.Grown own₁ b₁ := by
  induction times generalizing own b' s with
  | zero => exact ⟨.ok (), own, b', s, rfl, rfl, h⟩
  | succ times ih =>
    rw [repeated_succ_run, repeated_succ_run, h.name.1, h.size.1, h.name.2, h.size.2]
    rcases action.run (.new b.name b.size, s) with ⟨e | ⟨⟩, scratch, s₁⟩
    · exact ⟨.error e, own, b', s₁, rfl, rfl, h⟩
    · exact ih (h.absorb scratch) s₁

theorem Sampling.stage_onlyAdds (times : ℕ) : ((stage σ times).around rates rest k).OnlyAdds := by
  intro b s
  obtain ⟨outcome, own, b', s', hown, hb, hgrown⟩ := repeated_grows (rest k) times b.grown_new s
  rw [stage_run, stage_run, hown, hb]
  cases outcome with
  | error e => exact ⟨.error e, own, b', s', rfl, rfl, nofun⟩
  | ok _ =>
    exact ⟨.ok (), own.setInfo key (.ofNat times), b'.setInfo key (.ofNat times), s', rfl, rfl,
      fun _ => hgrown.setInfo key (.ofNat times)⟩

theorem Extrapolation.stage_onlyAdds (scales : List ℕ) :
    ((stage σ scales).around rates rest k).OnlyAdds := by
  intro b s
  obtain ⟨ts, s', htrials⟩ := trials_run rest k scales b.name b.size s
  rw [stage_run rates rest k scales (htrials (.new b.name b.size) rfl rfl),
    stage_run rates rest k scales (htrials b rfl rfl)]
  obtain ⟨e, hfails⟩ | ⟨first, scales', values, estimate, hadds⟩ := conclude_cases ts
  · rw [hfails, hfails]
    exact ⟨.error e, .new b.name b.size, b, s', rfl, rfl, nofun⟩
  · rw [hadds, hadds]
    have hgrown := (((b.grown_new.absorb first).setInfo scalesKey (.reals scales')).setInfo valuesKey
      (.reals values)).setInfo Buffer.expectationKey (.real estimate)
    exact ⟨.ok (), _, _, s', rfl, rfl, fun _ => hgrown⟩

end

namespace Buffer

/-- Outcomes taken from a histogram stand in its order. -/
theorem pairwise_replaceCounts (b : Buffer) (counts : Dictionary ℕ) :
    (b.replaceCounts counts).measurements.Pairwise (· ≤ ·) := by
  have hmeasurements : (b.replaceCounts counts).measurements =
      counts.entries.flatMap fun e => List.replicate e.2 e.1 := measurements_appendCounts _ _
  rw [hmeasurements, List.pairwise_flatMap]
  refine ⟨fun entry _ => ?_, counts.ascending.imp fun {x y} hlt => ?_⟩
  · exact List.pairwise_replicate.mpr (.inr (String.lt_irrefl entry.1))
  · intro bits hbits bits' hbits'
    rw [List.eq_of_mem_replicate hbits, List.eq_of_mem_replicate hbits']
    exact fun hgt => String.lt_irrefl x.1 (String.lt_trans hlt hgt)

end Buffer

theorem Correction.finish_eq_ok {σ : Type} {device : List Float} {r : Rates}
    {end₀ : Except DeviceError Unit × Buffer × σ} {b' : Buffer} {s' : σ}
    (h : finish device r end₀ = (.ok (), b', s')) :
    ∃ b, end₀ = (.ok (), b, s') ∧ corrected r device b = .ok b' := by
  obtain ⟨e | ⟨⟩, b, s⟩ := end₀
  · cases h
  · rw [finish] at h
    split at h <;> cases h
    exact ⟨b, rfl, ‹_›⟩

theorem Correction.corrected_cases {device : List Float} {r : Rates} {b b' : Buffer}
    (h : corrected r device b = .ok b') :
    b.shots = 0 ∧ b' = b ∨ b.shots ≠ 0 ∧ b'.measurements.Pairwise (· ≤ ·) := by
  rcases corrected_eq_ok h with hempty | ⟨hshots, _, _, _, -, -, rfl⟩
  · exact .inl hempty
  · exact .inr ⟨hshots, Buffer.pairwise_replaceCounts _ _⟩

/-- Corrections leave the outcomes in their order. -/
theorem Correction.pairwise_of_finish {σ : Type} {device : List Float} {rs : List Rates} (hrs : rs ≠ [])
    {outcome : Except DeviceError Unit} {b b' : Buffer} {s s' : σ} (hshots : b.shots ≠ 0)
    (h : rs.foldr (finish device) (outcome, b, s) = (.ok (), b', s')) :
    b'.measurements.Pairwise (· ≤ ·) := by
  induction rs generalizing b' with
  | nil => contradiction
  | cons r rs ih =>
    obtain ⟨b₁, hinner, hcorrected⟩ := finish_eq_ok h
    rcases corrected_cases hcorrected with ⟨hzero, rfl⟩ | ⟨-, hpairwise⟩
    · cases rs with
      | nil =>
        cases hinner
        contradiction
      | cons r' rs => exact ih (List.cons_ne_nil r' rs) hinner
    · exact hpairwise

namespace Accelerator

open StageSettings

variable {σ : Type}

theorem withStages_onlyAdds {base : Accelerator σ} (hbase : ∀ k, (base.execute k).OnlyAdds)
    {settings : List StageSettings} (hfirst : ∀ r, settings.head? ≠ some (.correction r)) (k : Kernel) :
    ((base.withStages settings).execute k).OnlyAdds := by
  cases settings with
  | nil => exact hbase k
  | cons setting settings =>
    cases setting with
    | sampling times => exact Sampling.stage_onlyAdds base.errorRates _ k times
    | correction r => exact absurd rfl (hfirst r)
    | extrapolation scales => exact Extrapolation.stage_onlyAdds base.errorRates _ k scales

theorem withStages_finishes {base : Accelerator σ} (hbase : ∀ k, (base.execute k).OnlyAdds)
    (settings : List StageSettings) (k : Kernel) (b : Buffer) (s : σ) :
    ∃ outcome own grown s', (outcome = .ok () → b.Grown own grown) ∧
      ((base.withStages settings).execute k).run (.new b.name b.size, s) =
        (outerCorrections settings).foldr (Correction.finish base.oneBitRates) (outcome, own, s') ∧
      ((base.withStages settings).execute k).run (b, s) =
        (outerCorrections settings).foldr (Correction.finish base.oneBitRates) (outcome, grown, s') ∧
      ((base.withStages (behindCorrections settings)).execute k).run (b, s) = (outcome, grown, s') := by
  obtain ⟨outcome, own, grown, s', hown, hgrown, hadds⟩ :=
    withStages_onlyAdds hbase (head?_behindCorrections settings) k b s
  exact ⟨outcome, own, grown, s', hadds, by rw [withStages_run, hown], by rw [withStages_run, hgrown], hgrown⟩

/-- Where a correction comes first and there are shots to correct, it leaves the outcomes in their order. -/
theorem outerCorrections_sort {device : List Float} {settings : List StageSettings} {r : Correction.Rates}
    (hfirst : settings.head? = some (.correction r)) {outcome : Except DeviceError Unit} {grown b' : Buffer}
    {s s' : σ} (hshots : grown.shots ≠ 0)
    (hrun : (outerCorrections settings).foldr (Correction.finish device) (outcome, grown, s) = (.ok (), b', s')) :
    b'.measurements.Pairwise (· ≤ ·) := by
  cases settings with
  | nil => cases hfirst
  | cons setting settings =>
    cases hfirst
    exact Correction.pairwise_of_finish (List.cons_ne_nil _ _) hshots hrun

/-- On a device that only adds to its buffer, a chain that does not begin with a correction only
adds as well. One that does corrects all that the rest of the chain leaves in the buffer, old
outcomes with new ones, and if these are any shots, it leaves them in their order. -/
theorem execute_adds_then_corrects {base : Accelerator σ} (hbase : ∀ k, (base.execute k).OnlyAdds)
    (settings : List StageSettings) (k : Kernel) :
    ((∀ r, settings.head? ≠ some (.correction r)) → ((base.withStages settings).execute k).OnlyAdds) ∧
    ∀ b s, ∃ outcome own grown s', (outcome = .ok () → b.Grown own grown) ∧
      ((base.withStages settings).execute k).run (.new b.name b.size, s) =
        (outerCorrections settings).foldr (Correction.finish base.oneBitRates) (outcome, own, s') ∧
      ((base.withStages settings).execute k).run (b, s) =
        (outerCorrections settings).foldr (Correction.finish base.oneBitRates) (outcome, grown, s') ∧
      ((base.withStages (behindCorrections settings)).execute k).run (b, s) = (outcome, grown, s') ∧
      ∀ r, settings.head? = some (.correction r) → grown.shots ≠ 0 → ∀ b' s'',
        ((base.withStages settings).execute k).run (b, s) = (.ok (), b', s'') →
        b'.measurements.Pairwise (· ≤ ·) := by
  refine ⟨fun hfirst => withStages_onlyAdds hbase hfirst k, fun b s => ?_⟩
  obtain ⟨outcome, own, grown, s', hadds, hown, hgrown, hrest⟩ := withStages_finishes hbase settings k b s
  exact ⟨outcome, own, grown, s', hadds, hown, hgrown, hrest, fun r hfirst hshots b' s'' hrun =>
    outerCorrections_sort hfirst hshots (hgrown.symm.trans hrun)⟩

/-- A device that measures one zero on each run. -/
def zeroDevice : Accelerator Unit where
  name := "zero"
  defaultSize := 1
  execute _ := Run.modifyBuffer (·.append "0")

theorem zeroDevice_onlyAdds (k : Kernel) : (zeroDevice.execute k).OnlyAdds := fun b s =>
  ⟨.ok (), (Buffer.new b.name b.size).append "0", b.append "0", s, rfl, rfl, fun _ => b.grown_new.append "0"⟩

theorem zeroDevice_corrected {r : Correction.Rates} {b : Buffer}
    (h : (Correction.corrected r [] (b.append "0")).toOption.isSome) (k : Kernel) :
    ∃ b', ((zeroDevice.withStages [.correction r]).execute k).run (b, ()) = (.ok (), b', ()) := by
  obtain ⟨b', hcorrected⟩ := exists_eq_ok_of_isSome h
  refine ⟨b', ?_⟩
  rw [withStages_run]
  change Correction.finish [] r (.ok (), b.append "0", ()) = _
  rw [Correction.finish, hcorrected]

/-- A correction of no errors, for a device whose buffer already holds a one before a zero. -/
theorem execute_reorders_oneBeforeZero :
    let device := zeroDevice.withStages [.correction ⟨some [0], some [0]⟩]
    let b := ((Buffer.new "q" 1).append "1").append "0"
    ∃ own b', (device.execute (.named "k")).run (.new b.name b.size, ()) = (.ok (), own, ()) ∧
      (device.execute (.named "k")).run (b, ()) = (.ok (), b', ()) ∧
      b'.measurements ≠ b.measurements ++ own.measurements := by
  intro device b
  obtain ⟨own, hown⟩ := zeroDevice_corrected (r := ⟨some [0], some [0]⟩) (b := .new "q" 1)
    (by decide +kernel) (.named "k")
  obtain ⟨b', hb'⟩ := zeroDevice_corrected (r := ⟨some [0], some [0]⟩) (b := b) (by decide +kernel) (.named "k")
  obtain ⟨outcome, own', grown, s', -, -, -, hrest, hsorts⟩ := (execute_adds_then_corrects zeroDevice_onlyAdds
    [.correction ⟨some [0], some [0]⟩] (.named "k")).2 b ()
  -- behind the correction the device alone is left, which adds another zero
  obtain rfl : b.append "0" = grown := congrArg (·.2.1) hrest
  have hsorted := hsorts _ rfl (by decide) b' () hb'
  refine ⟨own, b', hown, hb', fun hadded => ?_⟩
  rw [hadded] at hsorted
  exact absurd (List.rel_of_pairwise_cons hsorted (List.mem_cons_self ..)) (by decide)

end Accelerator

end QuantumKernels
