import QuantumKernels.Proofs.Accelerator.Run

/-!
# What a failed execution leaves behind

A chain can fail in four places: in the device itself, in one of the runs of repeated sampling, in
an extrapolation that comes to no conclusion, and in a correction that follows a run that has
succeeded. Only a device that keeps its buffer and an extrapolation leave the buffer as it was;
earlier samples stay in it, and so do outcomes that could not be corrected.
-/
namespace QuantumKernels

/-- Successful runs of an action one after another, each from the same buffer; the buffers they
end with are listed. -/
inductive Run.Succeeds {σ : Type} (action : Run σ Unit) (start : Buffer) : σ → List Buffer → σ → Prop
  | none (s : σ) : Succeeds action start s [] s
  | more {s s₁ s' : σ} {own : Buffer} {owns : List Buffer} (hrun : action.run (start, s) = (.ok (), own, s₁))
      (h : Succeeds action start s₁ owns s') : Succeeds action start s (own :: owns) s'

section

variable {σ : Type} {action : Run σ Unit} {times : ℕ} {b b' : Buffer} {s s' : σ} {e : DeviceError}

namespace Sampling

theorem exists_of_repeated_eq_error (h : (repeated action times).run (b, s) = (.error e, b', s')) :
    ∃ owns s₁ last, action.Succeeds (.new b.name b.size) s owns s₁ ∧ owns.length < times ∧
      action.run (.new b.name b.size, s₁) = (.error e, last, s') ∧ b' = owns.foldl Buffer.absorb b := by
  induction times generalizing b s with
  | zero => cases h
  | succ times ih =>
    rw [repeated_succ_run] at h
    rcases hfirst : action.run (.new b.name b.size, s) with ⟨e' | ⟨⟩, own, s₁⟩
    · rw [hfirst] at h
      cases h
      exact ⟨[], s, own, .none s, Nat.succ_pos times, hfirst, rfl⟩
    · rw [hfirst] at h
      obtain ⟨owns, s₂, last, hruns, hfewer, hfails, hleft⟩ := ih h
      exact ⟨own :: owns, s₂, last, .more hfirst hruns, Nat.succ_lt_succ hfewer, hfails, hleft⟩

/-- The runs that succeed are absorbed, and the rest of the repetition follows them. -/
theorem repeated_run_of_succeeds {start : Buffer} {owns : List Buffer} {s₁ : σ}
    (h : action.Succeeds start s owns s₁) (hname : start = .new b.name b.size) (times : ℕ) :
    (repeated action (owns.length + times)).run (b, s) =
      (repeated action times).run (owns.foldl Buffer.absorb b, s₁) := by
  induction h generalizing b with
  | none s => rw [List.length_nil, Nat.zero_add, List.foldl_nil]
  | more hrun _ ih =>
    rw [hname] at hrun
    rw [List.length_cons, Nat.succ_add, repeated_succ_run, hrun]
    exact ih hname

theorem name_size_foldl_absorb (owns : List Buffer) (b : Buffer) :
    (owns.foldl Buffer.absorb b).name = b.name ∧ (owns.foldl Buffer.absorb b).size = b.size := by
  induction owns generalizing b with
  | nil => exact ⟨rfl, rfl⟩
  | cons own owns ih => exact ih (b.absorb own)

theorem repeated_eq_error : (repeated action times).run (b, s) = (.error e, b', s') ↔
    ∃ owns s₁ last, action.Succeeds (.new b.name b.size) s owns s₁ ∧ owns.length < times ∧
      action.run (.new b.name b.size, s₁) = (.error e, last, s') ∧ b' = owns.foldl Buffer.absorb b := by
  refine ⟨exists_of_repeated_eq_error, ?_⟩
  rintro ⟨owns, s₁, last, hruns, hfewer, hfails, rfl⟩
  obtain ⟨left, rfl⟩ := Nat.exists_eq_add_of_lt hfewer
  have hsame := name_size_foldl_absorb owns b
  rw [Nat.add_assoc, repeated_run_of_succeeds hruns rfl, repeated_succ_run, hsame.1, hsame.2, hfails]

theorem stage_eq_error (rates : ErrorRates) (rest : Kernel → Run σ Unit) (k : Kernel) :
    ((stage σ times).around rates rest k).run (b, s) = (.error e, b', s') ↔
      (repeated (rest k) times).run (b, s) = (.error e, b', s') := by
  rw [stage_run]
  rcases (repeated (rest k) times).run (b, s) with ⟨e' | ⟨⟩, own, s₁⟩
  · rfl
  · exact ⟨nofun, nofun⟩

end Sampling

namespace Extrapolation

theorem stage_eq_error (rates : ErrorRates) (rest : Kernel → Run σ Unit) (k : Kernel) (scales : List ℕ) :
    ((stage σ scales).around rates rest k).run (b, s) = (.error e, b', s') ↔
      ∃ ts, (trials rest k scales).run (b, s) = (.ok ts, b, s') ∧ conclude ts b = .error e ∧ b' = b := by
  obtain ⟨ts, s₁, htrials⟩ := trials_run rest k scales b.name b.size s
  rw [stage_run rates rest k scales (htrials b rfl rfl), htrials b rfl rfl]
  cases hconclude : conclude ts b with
  | error e' =>
    constructor
    · intro h
      cases h
      exact ⟨ts, rfl, hconclude, rfl⟩
    · rintro ⟨ts', hts, hfails, rfl⟩
      cases hts
      rw [hconclude] at hfails
      cases hfails
      rfl
  | ok b₁ =>
    constructor
    · nofun
    · rintro ⟨ts', hts, hfails, -⟩
      cases hts
      rw [hconclude] at hfails
      cases hfails

end Extrapolation

namespace Correction

variable {device : List Float} {rs : List Rates}

/-- The first correction that fails keeps the buffer as the ones before it have left it. -/
theorem foldr_finish_eq_error : rs.foldr (finish device) (.ok (), b, s) = (.error e, b', s') ↔
    ∃ later r earlier, rs = later ++ r :: earlier ∧
      earlier.foldr (finish device) (.ok (), b, s) = (.ok (), b', s') ∧ corrected r device b' = .error e := by
  induction rs with
  | nil => simp
  | cons r₀ rs ih =>
    rw [List.foldr_cons]
    constructor
    · intro h
      rcases hrest : rs.foldr (finish device) (.ok (), b, s) with ⟨e' | ⟨⟩, b₁, s₁⟩
      · rw [hrest] at h
        cases h
        obtain ⟨later, r, earlier, rfl, hearlier, hfails⟩ := ih.mp hrest
        exact ⟨r₀ :: later, r, earlier, rfl, hearlier, hfails⟩
      · rw [hrest, finish] at h
        split at h <;> cases h
        exact ⟨[], r₀, rs, rfl, hrest, ‹_›⟩
    · rintro ⟨later, r, earlier, hrs, hearlier, hfails⟩
      cases later with
      | nil =>
        cases hrs
        rw [hearlier, finish, hfails]
      | cons r₁ later =>
        cases hrs
        rw [ih.mpr ⟨later, r, earlier, rfl, hearlier, hfails⟩, finish]

end Correction

end

namespace Accelerator

open StageSettings

variable {σ : Type}

/-- The places where a chain can fail, with the buffer that is left. -/
inductive FailsLeaving (base : Accelerator σ) (settings : List StageSettings) (k : Kernel) (b : Buffer)
    (s : σ) (e : DeviceError) (s' : σ) : Buffer → Prop
  | device (hchain : behindCorrections settings = []) (hfails : (base.execute k).run (b, s) = (.error e, b, s')) :
      FailsLeaving base settings k b s e s' b
  | extrapolation {scales : List ℕ} {inner : List StageSettings} {ts : List Extrapolation.Trial}
      (hchain : behindCorrections settings = .extrapolation scales :: inner)
      (htrials : (Extrapolation.trials (base.withStages inner).execute k scales).run (b, s) = (.ok ts, b, s'))
      (hfails : Extrapolation.conclude ts b = .error e) : FailsLeaving base settings k b s e s' b
  | sampling {times : ℕ} {inner : List StageSettings} {owns : List Buffer} {s₁ : σ} {last : Buffer}
      (hchain : behindCorrections settings = .sampling times :: inner)
      (hruns : ((base.withStages inner).execute k).Succeeds (.new b.name b.size) s owns s₁)
      (hfewer : owns.length < times)
      (hfails : ((base.withStages inner).execute k).run (.new b.name b.size, s₁) = (.error e, last, s')) :
      FailsLeaving base settings k b s e s' (owns.foldl Buffer.absorb b)
  | correction {later earlier : List Correction.Rates} {r : Correction.Rates} {b₁ b' : Buffer} {s₁ : σ}
      (hchain : outerCorrections settings = later ++ r :: earlier)
      (hrun : ((base.withStages (behindCorrections settings)).execute k).run (b, s) = (.ok (), b₁, s₁))
      (hearlier : earlier.foldr (Correction.finish base.oneBitRates) (.ok (), b₁, s₁) = (.ok (), b', s'))
      (hfails : Correction.corrected r base.oneBitRates b' = .error e) : FailsLeaving base settings k b s e s' b'

variable {base : Accelerator σ} {settings : List StageSettings} {k : Kernel} {b b' : Buffer} {s s' : σ}
  {e : DeviceError}

/-- Without corrections in front, the stage that comes first decides. -/
theorem failsLeaving_behind
    (hbase : ∀ k b s e b' s', (base.execute k).run (b, s) = (.error e, b', s') → b' = b)
    (h : ((base.withStages (behindCorrections settings)).execute k).run (b, s) = (.error e, b', s')) :
    FailsLeaving base settings k b s e s' b' := by
  cases hchain : behindCorrections settings with
  | nil =>
    rw [hchain] at h
    obtain rfl := hbase k b s e b' s' h
    exact .device hchain h
  | cons setting inner =>
    rw [hchain, withStages_cons] at h
    cases setting with
    | correction r => exact absurd (congrArg List.head? hchain) (head?_behindCorrections settings r)
    | sampling times =>
      obtain ⟨owns, s₁, last, hruns, hfewer, hfails, rfl⟩ :=
        Sampling.repeated_eq_error.mp ((Sampling.stage_eq_error base.errorRates _ k).mp h)
      exact .sampling hchain hruns hfewer hfails
    | extrapolation scales =>
      obtain ⟨ts, htrials, hfails, rfl⟩ := (Extrapolation.stage_eq_error base.errorRates _ k scales).mp h
      exact .extrapolation hchain htrials hfails

theorem execute_of_failsLeaving (h : FailsLeaving base settings k b s e s' b') :
    ((base.withStages settings).execute k).run (b, s) = (.error e, b', s') := by
  rw [withStages_run]
  cases h with
  | device hchain hfails =>
    have hrun : ((base.withStages []).execute k).run (b, s) = (.error e, b, s') := hfails
    rw [hchain, hrun, Correction.foldr_finish_error]
  | extrapolation hchain htrials hfails =>
    rw [hchain, withStages_cons, stage, (Extrapolation.stage_eq_error ..).mpr ⟨_, htrials, hfails, rfl⟩,
      Correction.foldr_finish_error]
  | sampling hchain hruns hfewer hfails =>
    rw [hchain, withStages_cons, stage, (Sampling.stage_eq_error ..).mpr
      (Sampling.repeated_eq_error.mpr ⟨_, _, _, hruns, hfewer, hfails, rfl⟩), Correction.foldr_finish_error]
  | correction hchain hrun hearlier hfails =>
    rw [hrun, Correction.foldr_finish_eq_error]
    exact ⟨_, _, _, hchain, hearlier, hfails⟩

theorem execute_eq_error
    (hbase : ∀ k b s e b' s', (base.execute k).run (b, s) = (.error e, b', s') → b' = b) :
    ((base.withStages settings).execute k).run (b, s) = (.error e, b', s') ↔
      FailsLeaving base settings k b s e s' b' := by
  refine ⟨fun h => ?_, execute_of_failsLeaving⟩
  rw [withStages_run] at h
  rcases hrun : ((base.withStages (behindCorrections settings)).execute k).run (b, s) with ⟨e' | ⟨⟩, b₁, s₁⟩
  · rw [hrun, Correction.foldr_finish_error] at h
    cases h
    exact failsLeaving_behind hbase hrun
  · rw [hrun] at h
    obtain ⟨later, r, earlier, hchain, hearlier, hfails⟩ := Correction.foldr_finish_eq_error.mp h
    exact .correction hchain hrun hearlier hfails

theorem FailsLeaving.eq_of_head? (h : FailsLeaving base settings k b s e s' b')
    (hcorrection : ∀ r, settings.head? ≠ some (.correction r))
    (hsampling : ∀ times, settings.head? = some (.sampling times) → times ≤ 1) : b' = b := by
  obtain ⟨houter, hbehind⟩ := corrections_of_head? hcorrection
  cases h with
  | device hchain hfails => rfl
  | extrapolation hchain htrials hfails => rfl
  | sampling hchain hruns hfewer hfails =>
    rw [hbehind] at hchain
    have hnone := Nat.lt_of_lt_of_le hfewer (hsampling _ (by rw [hchain]; rfl))
    rw [List.length_eq_zero_iff.mp (Nat.lt_one_iff.mp hnone), List.foldl_nil]
  | correction hchain hrun hearlier hfails =>
    rw [houter] at hchain
    simp at hchain

/-- A chain over a device that keeps its buffer when it fails itself fails in these places and no
others. So it keeps its buffer as well if it neither begins with a correction nor, to begin with,
samples more than once. -/
theorem failed_execute_leaves
    (hbase : ∀ k b s e b' s', (base.execute k).run (b, s) = (.error e, b', s') → b' = b)
    (settings : List StageSettings) (k : Kernel) (b : Buffer) (s : σ) (e : DeviceError) (b' : Buffer) (s' : σ) :
    (((base.withStages settings).execute k).run (b, s) = (.error e, b', s') ↔
      FailsLeaving base settings k b s e s' b') ∧
    ((∀ r, settings.head? ≠ some (.correction r)) →
      (∀ times, settings.head? = some (.sampling times) → times ≤ 1) →
      ((base.withStages settings).execute k).run (b, s) = (.error e, b', s') → b' = b) :=
  ⟨execute_eq_error hbase, fun hcorrection hsampling hfails =>
    ((execute_eq_error hbase).mp hfails).eq_of_head? hcorrection hsampling⟩

/-- A device that measures one zero on each run but the second, which fails; it counts its runs. -/
def faltering : Accelerator ℕ where
  name := "faltering"
  defaultSize := 1
  execute _ := ExceptT.mk fun (b, runs) =>
    if runs = 1 then (.error (.execution "call 1 failed"), b, runs + 1) else (.ok (), b.append "0", runs + 1)

theorem faltering_keeps (k : Kernel) (b : Buffer) (s : ℕ) (e : DeviceError) (b' : Buffer) (s' : ℕ)
    (h : (faltering.execute k).run (b, s) = (.error e, b', s')) : b' = b := by
  change (if s = 1 then _ else _) = _ at h
  split at h <;> cases h
  rfl

/-- The second of two samples fails, and the first one stays. -/
theorem failed_execute_leaves_firstSample :
    (∀ k b s e b' s', (faltering.execute k).run (b, s) = (.error e, b', s') → b' = b) ∧
    ∃ b', ((faltering.withStages [.sampling 2]).execute (.named "k")).run (.new "q" 1, 0) =
      (.error (.execution "call 1 failed"), b', 2) ∧ b'.measurements = ["0"] :=
  ⟨faltering_keeps, _, (failed_execute_leaves faltering_keeps [.sampling 2] (.named "k") (.new "q" 1) 0
    (.execution "call 1 failed") _ 2).1.mpr
    (.sampling rfl (.more rfl (.none 1)) (by decide) rfl), rfl⟩

end Accelerator

end QuantumKernels
